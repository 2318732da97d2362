import Kotlinize.Proofs.Bystander

namespace Kotlinize

/-!
# Braces with their partners

Accessors leave their braces together with whole properties inside them.  That no brace of a run
of tokens has its partner behind the run is what keeps such a run together.

* `isBrace` — the tokens that count: nothing else has a part in finding a partner.
* `paired` — every brace that opens in a list has its partner in the list.
* `paired_inside` — what a pair of braces encloses is paired.
-/

variable {b : Bracket} {as bs ts : List Token}

/-! ### Partners -/

/-- A partner that is found in a text is found with more text behind it. -/
theorem enclosed?_append {depth : Nat} {e : Enclosed} (h : b.enclosed? depth as = some e)
    (bs : List Token) :
    b.enclosed? depth (as ++ bs) = some ⟨e.inside, e.close, e.tail ++ bs⟩ := by
  fun_induction Bracket.enclosed? b depth as generalizing e with
  | case1 => cases h
  | case2 depth t ts ho ih =>
    obtain ⟨e', he', rfl⟩ := Option.map_eq_some_iff.1 h
    rw [List.cons_append, Bracket.enclosed?, if_pos ho, ih he']
    rfl
  | case3 t ts ho hc =>
    cases h
    rw [List.cons_append, Bracket.enclosed?, if_neg ho, if_pos hc, if_pos rfl]
  | case4 depth t ts ho hc hd ih =>
    obtain ⟨e', he', rfl⟩ := Option.map_eq_some_iff.1 h
    rw [List.cons_append, Bracket.enclosed?, if_neg ho, if_pos hc, if_neg hd, ih he']
    rfl
  | case5 depth t ts ho hc ih =>
    obtain ⟨e', he', rfl⟩ := Option.map_eq_some_iff.1 h
    rw [List.cons_append, Bracket.enclosed?, if_neg ho, if_neg hc, ih he']
    rfl

/-- What a partner at some depth leaves inside holds the partners for all smaller depths. -/
theorem isSome_enclosed?_inside {depth inner : Nat} {e : Enclosed}
    (h : b.enclosed? depth ts = some e) (hlt : inner < depth) :
    (b.enclosed? inner e.inside).isSome = true := by
  fun_induction Bracket.enclosed? b depth ts generalizing e inner with
  | case1 => cases h
  | case2 depth t ts ho ih =>
    obtain ⟨e', he', rfl⟩ := Option.map_eq_some_iff.1 h
    show (b.enclosed? inner (t :: e'.inside)).isSome = true
    rw [Bracket.enclosed?, if_pos ho, Option.isSome_map]
    exact ih he' (Nat.succ_lt_succ hlt)
  | case3 => exact absurd hlt (Nat.not_lt_zero _)
  | case4 depth t ts ho hc hd ih =>
    obtain ⟨e', he', rfl⟩ := Option.map_eq_some_iff.1 h
    show (b.enclosed? inner (t :: e'.inside)).isSome = true
    rw [Bracket.enclosed?, if_neg ho, if_pos hc]
    by_cases hi : inner = 0
    · rw [if_pos hi]
      rfl
    · rw [if_neg hi, Option.isSome_map]
      exact ih he' (by omega)
  | case5 depth t ts ho hc ih =>
    obtain ⟨e', he', rfl⟩ := Option.map_eq_some_iff.1 h
    show (b.enclosed? inner (t :: e'.inside)).isSome = true
    rw [Bracket.enclosed?, if_neg ho, if_neg hc, Option.isSome_map]
    exact ih he' hlt

/-! ### Paired lists -/

/-- Whether every brace that opens in a list has its partner in the list. -/
def paired : List Token → Bool
  | [] => true
  | t :: ts =>
    (!Bracket.curly.opens t || (Bracket.curly.enclosed? 0 ts).isSome) && paired ts

theorem paired_cons_iff {t : Token} :
    paired (t :: ts) = true ↔ (Bracket.curly.opens t = true
      → (Bracket.curly.enclosed? 0 ts).isSome = true) ∧ paired ts = true := by
  rw [paired, Bool.and_eq_true, Bool.or_eq_true, Bool.not_eq_true']
  refine and_congr_left fun _ => ?_
  cases Bracket.curly.opens t <;> simp

theorem paired_append (ha : paired as = true) (hb : paired bs = true) :
    paired (as ++ bs) = true := by
  induction as with
  | nil => exact hb
  | cons t as ih =>
    rw [paired_cons_iff] at ha
    rw [List.cons_append, paired_cons_iff]
    refine ⟨fun ho => ?_, ih ha.2⟩
    obtain ⟨e, he⟩ := Option.isSome_iff_exists.1 (ha.1 ho)
    rw [enclosed?_append he]
    rfl

theorem paired_right (h : paired (as ++ bs) = true) : paired bs = true := by
  induction as with
  | nil => exact h
  | cons t as ih => exact ih (paired_cons_iff.1 h).2

/-- What a pair of braces encloses is paired. -/
theorem paired_inside {depth : Nat} {e : Enclosed}
    (h : Bracket.curly.enclosed? depth ts = some e) : paired e.inside = true := by
  fun_induction Bracket.enclosed? .curly depth ts generalizing e with
  | case1 => cases h
  | case2 depth t ts ho ih =>
    obtain ⟨e', he', rfl⟩ := Option.map_eq_some_iff.1 h
    show paired (t :: e'.inside) = true
    rw [paired_cons_iff]
    exact ⟨fun _ => isSome_enclosed?_inside he' (Nat.succ_pos depth), ih he'⟩
  | case3 => cases h; rfl
  | case4 depth t ts ho hc hd ih =>
    obtain ⟨e', he', rfl⟩ := Option.map_eq_some_iff.1 h
    show paired (t :: e'.inside) = true
    rw [paired_cons_iff]
    exact ⟨fun ho' => absurd ho' ho, ih he'⟩
  | case5 depth t ts ho hc ih =>
    obtain ⟨e', he', rfl⟩ := Option.map_eq_some_iff.1 h
    show paired (t :: e'.inside) = true
    rw [paired_cons_iff]
    exact ⟨fun ho' => absurd ho' ho, ih he'⟩

/-! ### Only braces count -/

/-- Whether a token is a brace. -/
def isBrace (t : Token) : Bool := Bracket.curly.opens t || Bracket.curly.closes t

theorem isSome_enclosed?_filter (depth : Nat) (ts : List Token) :
    (Bracket.curly.enclosed? depth (ts.filter isBrace)).isSome
      = (Bracket.curly.enclosed? depth ts).isSome := by
  induction ts generalizing depth with
  | nil => rfl
  | cons t ts ih =>
    by_cases ho : Bracket.curly.opens t = true
    · have ht : isBrace t = true := by rw [isBrace, ho]; rfl
      rw [List.filter_cons, if_pos ht, Bracket.enclosed?, Bracket.enclosed?, if_pos ho, if_pos ho,
        Option.isSome_map, Option.isSome_map, ih]
    · by_cases hc : Bracket.curly.closes t = true
      · have ht : isBrace t = true := by rw [isBrace, hc, Bool.or_true]
        rw [List.filter_cons, if_pos ht, Bracket.enclosed?, Bracket.enclosed?, if_neg ho,
          if_neg ho, if_pos hc, if_pos hc]
        by_cases hd : depth = 0
        · rw [if_pos hd, if_pos hd]
          rfl
        · rw [if_neg hd, if_neg hd, Option.isSome_map, Option.isSome_map, ih]
      · have ht : ¬ isBrace t = true := by
          rw [isBrace, Bool.or_eq_true, not_or]
          exact ⟨ho, hc⟩
        rw [List.filter_cons, if_neg ht, ih, Bracket.enclosed?, if_neg ho, if_neg hc,
          Option.isSome_map]

theorem paired_filter (ts : List Token) : paired (ts.filter isBrace) = paired ts := by
  induction ts with
  | nil => rfl
  | cons t ts ih =>
    by_cases ht : isBrace t = true
    · rw [List.filter_cons, if_pos ht, paired, paired, isSome_enclosed?_filter, ih]
    · have ho : Bracket.curly.opens t = false := by
        rw [isBrace, Bool.or_eq_true, not_or, Bool.not_eq_true] at ht
        exact ht.1
      rw [List.filter_cons, if_neg ht, ih, paired, ho]
      rfl

/-- Lists with the same braces are paired alike. -/
theorem paired_congr (h : as.filter isBrace = bs.filter isBrace) : paired as = paired bs := by
  rw [← paired_filter as, h, paired_filter]

/-! ### Tokens without braces or keywords -/

/-- Whether a token neither declares a variable nor is a brace. -/
def isInert (t : Token) : Bool := !isVariableKeyword t && !isBrace t

theorem isInert_of_kind {t : Token} (hk : t.kind ≠ .keyword) (ho : t.kind ≠ .startOfScope)
    (hc : t.kind ≠ .endOfScope) : isInert t = true := by
  simp [isInert, isVariableKeyword, isBrace, Bracket.opens, Bracket.closes, Token.is, hk, ho, hc]

theorem isInert_of_isTrivia {t : Token} (h : t.isTrivia = true) : isInert t = true := by
  rw [Token.isTrivia, Token.isSpacing, Bool.or_eq_true, Bool.or_eq_true, beq_iff_eq, beq_iff_eq,
    beq_iff_eq] at h
  rcases h with (h | h) | h <;> apply isInert_of_kind <;> rw [h] <;> decide

theorem isInert_of_isIdentifier {t : Token} (h : t.isIdentifier = true) : isInert t = true := by
  rw [Token.isIdentifier, beq_iff_eq] at h
  apply isInert_of_kind <;> rw [h] <;> decide

theorem isInert_of_mark {t : Token} (h : computedTypeMarks.contains t.text = true) :
    isInert t = true := by
  have hall : (computedTypeMarks.all fun text => text != "var" && text != "\x7b"
      && text != "\x7d") = true := by decide
  have ht := List.all_eq_true.1 hall t.text (List.contains_iff_mem.1 h)
  simp only [Bool.and_eq_true, bne_iff_ne] at ht
  simp [isInert, isVariableKeyword, isBrace, Bracket.opens, Bracket.closes, Bracket.opener,
    Bracket.closer, Token.is, ht.1.1, ht.1.2, ht.2]

theorem isInert_of_continuesType {t : Token} (h : continuesType t = true) :
    isInert t = true := by
  rw [continuesType, isTypeToken, Bool.or_eq_true, Bool.or_eq_true, Bool.or_eq_true,
    beq_iff_eq] at h
  rcases h with ((h | h) | h) | h
  · exact isInert_of_isIdentifier h
  · exact isInert_of_mark h
  · exact isInert_of_isTrivia (isTrivia_of_isWhitespace t h)
  · apply isInert_of_kind <;> rw [h] <;> decide

theorem isInert_typedName {n : TypedName} (h : typedName? ts = some n) :
    ∀ t ∈ n.lead, isInert t = true := by
  obtain ⟨before, name, between, colon, behind, hn, hbefore, hname, hbetween, hcolon, hbehind⟩ :=
    typedName?_eq_some h
  rw [hn]
  simp only [List.forall_mem_append, List.forall_mem_cons]
  refine ⟨fun t ht => isInert_of_isTrivia (hbefore t ht), isInert_of_isIdentifier hname,
    fun t ht => isInert_of_isTrivia (hbetween t ht), ?_,
    fun t ht => isInert_of_isTrivia (hbehind t ht)⟩
  have hkind := (Token.is_iff.1 hcolon).1
  apply isInert_of_kind <;> rw [hkind] <;> decide

/-- In front of the braces of a property stands no keyword that the pass changes, and no brace. -/
theorem isInert_lead {p : PropertyBody} (h : propertyBody? ts = some p) :
    ∀ t ∈ p.lead, isInert t = true := by
  obtain ⟨n, type, trivia, rest, hn, hlead, htype, htrivia, -⟩ := propertyBody?_eq_some h
  rw [hlead]
  simp only [List.forall_mem_append]
  exact ⟨isInert_typedName hn, fun t ht => isInert_of_continuesType (htype t ht),
    fun t ht => isInert_of_isTrivia (htrivia t ht)⟩

theorem isVariableKeyword_of_isInert {t : Token} (h : isInert t = true) :
    isVariableKeyword t = false := by
  rw [isInert, Bool.and_eq_true, Bool.not_eq_true'] at h
  exact h.1

theorem isInert_dropEndIf_lead {p : PropertyBody} (h : propertyBody? ts = some p) :
    ∀ t ∈ dropEndIf Token.isWhitespace p.lead, isInert t = true := fun t ht =>
  isInert_lead h t ((dropEndIf_sublist Token.isWhitespace p.lead).subset ht)

/-! ### What adds no brace -/

/-- Inert tokens hold no brace. -/
theorem filter_isBrace_of_isInert (h : ∀ t ∈ ts, isInert t = true) : ts.filter isBrace = [] := by
  rw [List.filter_eq_nil_iff]
  intro t ht
  have hi := h t ht
  rw [isInert, Bool.and_eq_true, Bool.not_eq_true', Bool.not_eq_true'] at hi
  rw [hi.2]
  exact Bool.false_ne_true

theorem paired_of_isInert (h : ∀ t ∈ ts, isInert t = true) : paired ts = true := by
  rw [← paired_filter, filter_isBrace_of_isInert h]
  rfl

/-- The edits of accessors pass by the braces. -/
theorem bystander_isBrace : Bystander isBrace where
  spacing t ht := by
    have hinert := isInert_of_isTrivia (Token.isTrivia_of_isSpacing ht)
    rw [isInert, Bool.and_eq_true, Bool.not_eq_true', Bool.not_eq_true'] at hinert
    exact hinert.2
  identifier _ := rfl
  opener := rfl
  closer := rfl

end Kotlinize
