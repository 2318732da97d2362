import Kotlinize.Proofs.Literal.Grammar

namespace Kotlinize

/-!
# Literals of one line

A literal with one quote on each side ends on the line where it starts, unless an escape is in its
way: what an escape stands in front of is taken with it, and nothing looks whether that is a line
end.

* `Token.hashes` — how many hashes a literal starts with.
* `Frame.ClosedBy.escape_suffix_of_isLineEnd` — a line end stands behind an escape.
* `forall_isLineEnd_eq_false_iff` — when a literal of one line holds no line end.
-/

/-- The number of hashes that a token starts with. -/
def Token.hashes (t : Token) : Nat := (t.text.toList.takeWhile (· == '#')).length

namespace Frame

variable {hashes : Nat} {cs : List Char}

/-- **A line end in a literal of one line stands behind an escape**, expressions apart. -/
theorem ClosedBy.escape_suffix_of_isLineEnd (h : (quoted hashes false).ClosedBy cs)
    (hplain : ¬ escape hashes ++ ['('] <:+: cs) {c : Char} {front back : List Char}
    (hsplit : cs = front ++ c :: back) (hc : isLineEnd c = true) : escape hashes <:+ front := by
  -- The literal is read from its front, so a part of it is known to the hypothesis.
  generalize hf : quoted hashes false = frame at h
  induction h generalizing front with
  | close =>
    cases hf
    have hmem : c ∈ closing hashes false := hsplit ▸ by simp
    rw [isLineEnd_of_mem_closing hmem] at hc
    cases hc
  | @character _ _ d ds hline _ _ _ ih =>
    cases hf
    have hrest : ¬ escape hashes ++ ['('] <:+: ds := fun hi => hplain (List.infix_cons hi)
    rcases List.cons_eq_append_iff.1 hsplit with ⟨rfl, heq⟩ | ⟨front', rfl, heq⟩
    · obtain ⟨rfl, -⟩ := List.cons.inj heq
      simp [hc] at hline
    · exact (ih hrest heq rfl).trans (List.suffix_cons d front')
  | @escaped _ _ d ds _ _ ih =>
    cases hf
    have hrest : ¬ escape hashes ++ ['('] <:+: ds := fun hi =>
      hplain ((List.infix_cons hi).trans (List.suffix_append (escape hashes) (d :: ds)).isInfix)
    rcases List.append_eq_append_iff.1 hsplit with ⟨front', rfl, heq⟩ | ⟨more, hfront, hmore⟩
    · -- Behind the escape stands the character that it takes, whatever it is.
      rcases List.cons_eq_append_iff.1 heq with ⟨rfl, -⟩ | ⟨front'', rfl, hds⟩
      · rw [List.append_nil]
      · exact ((ih hrest hds rfl).trans (List.suffix_cons d front'')).trans
          (List.suffix_append (escape hashes) _)
    · rcases List.cons_eq_append_iff.1 hmore with ⟨rfl, -⟩ | ⟨more', rfl, -⟩
      · rw [hfront, List.append_nil]
      · have hmem : c ∈ escape hashes := hfront ▸ by simp
        rw [isLineEnd_of_mem_escape hmem] at hc
        cases hc
  | @interpolated _ _ as bs _ _ _ _ =>
    cases hf
    refine absurd ⟨[], as ++ bs, ?_⟩ hplain
    rw [List.nil_append, List.append_assoc, List.singleton_append]
  | _ => cases hf

end Frame

variable {source : String} {ts : List Token} {t : Token}

/-- The hashes that are counted in front of a literal are those that it starts with. -/
theorem Token.hashes_eq {hashes : Nat} {multiline : Bool} {inside : List Char}
    (h : t.text.toList = List.replicate hashes '#' ++ (Frame.quotes multiline ++ inside)) :
    t.hashes = hashes := by
  have hall : ∀ c ∈ List.replicate hashes '#', (c == '#') = true := by
    intro c hc
    rw [(List.mem_replicate.1 hc).2]
    rfl
  have hquotes : (Frame.quotes multiline ++ inside).takeWhile (· == '#') = [] := by
    cases multiline <;> rfl
  rw [Token.hashes, h, List.takeWhile_append_of_pos hall, hquotes, List.append_nil,
    List.length_replicate]

/-- **A literal of one line reaches into the next one only behind an escape.**  A literal with one
    quote on each side and no interpolated expression holds no line end if and only if none stands
    directly behind an escape. -/
theorem forall_isLineEnd_eq_false_iff (h : tokenize source = .ok ts) (ht : t ∈ ts)
    (hkind : t.kind = .stringLiteral)
    (hsingle : Frame.startsMultiline (t.text.toList.drop t.hashes) = false)
    (hplain : ¬ Frame.escape t.hashes ++ ['('] <:+: t.text.toList) :
    (∀ c ∈ t.text.toList, isLineEnd c = false) ↔
      ∀ c, isLineEnd c = true → ¬ Frame.escape t.hashes ++ [c] <:+: t.text.toList := by
  constructor
  · intro hall c hc hinfix
    have hmem : c ∈ t.text.toList := hinfix.subset (List.mem_append_right _ List.mem_cons_self)
    rw [hall c hmem] at hc
    cases hc
  · intro hescapes c hmem
    obtain ⟨hashes, multiline, inside, htext, hmulti, hclose⟩ := exists_inside_of_mem h ht hkind
    rw [Token.hashes_eq htext] at hsingle hplain hescapes
    rw [htext] at hsingle hplain hescapes hmem
    obtain rfl : multiline = false := by
      rwa [List.drop_left' List.length_replicate, hmulti] at hsingle
    cases hc : isLineEnd c with
    | false => rfl
    | true =>
      rcases List.mem_append.1 hmem with hmem | hmem
      · rw [(List.mem_replicate.1 hmem).2] at hc
        cases hc
      rcases List.mem_append.1 hmem with hmem | hmem
      · rw [List.mem_singleton.1 hmem] at hc
        cases hc
      -- A line end behind the first quote stands behind an escape, and there is none like that.
      obtain ⟨front, back, rfl⟩ := List.append_of_mem hmem
      have hinside : front ++ c :: back <:+: List.replicate hashes '#'
          ++ (Frame.quotes false ++ (front ++ c :: back)) :=
        ((List.suffix_append _ _).trans (List.suffix_append _ _)).isInfix
      obtain ⟨before, rfl⟩ := hclose.escape_suffix_of_isLineEnd
        (fun hi => hplain (hi.trans hinside)) rfl hc
      refine absurd (List.IsInfix.trans ⟨before, back, ?_⟩ hinside) (hescapes c hc)
      simp

/-- A literal with hashes around it, in which a backslash by itself escapes nothing. -/
def rawLiteral : Token := ⟨.stringLiteral, "#\"\\n\\#t\"#", ⟨1, 3⟩⟩

/-- The escape in such a literal stands in front of a letter. -/
theorem forall_isLineEnd_eq_false_rawLiteral :
    tokenize "a=#\"\\n\\#t\"#"
        = .ok [⟨.identifier, "a", ⟨1, 1⟩⟩, ⟨.symbol, "=", ⟨1, 2⟩⟩, rawLiteral] ∧
      ∀ c ∈ rawLiteral.text.toList, isLineEnd c = false := by
  have h : tokenize "a=#\"\\n\\#t\"#"
      = .ok [⟨.identifier, "a", ⟨1, 1⟩⟩, ⟨.symbol, "=", ⟨1, 2⟩⟩, rawLiteral] := by
    cbv
  refine ⟨h, (forall_isLineEnd_eq_false_iff h (by simp) rfl (by decide) (by decide)).2 ?_⟩
  intro c hc
  rw [isLineEnd, Bool.or_eq_true, beq_iff_eq, beq_iff_eq] at hc
  rcases hc with rfl | rfl <;> decide

/-- The token of a literal in which a backslash stands in front of a line feed. -/
def literalOverLines : Token := ⟨.stringLiteral, "\"\\\n\"", ⟨1, 1⟩⟩

/-- **An escape takes a literal of one line into the next one.** -/
theorem not_forall_isLineEnd_eq_false :
    ¬ ∀ (source : String) (ts : List Token), tokenize source = .ok ts → ∀ t ∈ ts,
      t.kind = .stringLiteral → Frame.startsMultiline (t.text.toList.drop t.hashes) = false →
      ¬ Frame.escape t.hashes ++ ['('] <:+: t.text.toList →
      ∀ c ∈ t.text.toList, isLineEnd c = false := by
  intro hall
  have htokenize : tokenize "\"\\\n\"" = .ok [literalOverLines] := by
    cbv
  have hline : isLineEnd '\n' = false :=
    hall _ _ htokenize literalOverLines List.mem_cons_self rfl (by decide) (by decide) '\n'
      (by decide)
  cases hline

end Kotlinize
