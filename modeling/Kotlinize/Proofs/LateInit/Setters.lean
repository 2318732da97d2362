import Kotlinize.Proofs.LateInit.Marked
import Kotlinize.Proofs.Rewrite

namespace Kotlinize

/-!
# Typed names and the pass over setters

Between the pass over accessors and that over marks the pass over setters changes the text once
more.  It may take a `modifier(set)` away in front of a property and write a line for it, and that
line can fall into a typed name that goes on behind a line end.  It never makes a mark that a
property did not have.

* `Unrestricted` — tokens among which no `modifier(set)` starts.
* `KeptOrCut` — what stands in place of such tokens after the pass: the tokens, or a part of them
  and a line.
* `exists_keptOrCut_of_relocateSetters` — the text behind a keyword after the pass.
* `KeptOrCut.marked` — a mark behind the keyword after the pass was there before.
-/

variable {config : Config} {v t : Token} {as bs ts : List Token}

/-! ### What the pass leaves alone -/

/-- No `modifier(set)` starts among the tokens of a list in front of another. -/
def Unrestricted (as bs : List Token) : Prop :=
  ∀ before k behind, as = before ++ k :: behind → k.isKeyword = true →
    restricted? (behind ++ bs) = none

theorem unrestricted_cons_iff :
    Unrestricted (t :: as) bs
      ↔ (t.isKeyword = true → restricted? (as ++ bs) = none) ∧ Unrestricted as bs := by
  constructor
  · intro h
    exact ⟨h [] t as rfl, fun before k behind heq => h (t :: before) k behind (by rw [heq]; rfl)⟩
  · rintro ⟨ht, has⟩ before k behind heq
    cases before with
    | nil =>
      obtain ⟨rfl, rfl⟩ := List.cons.inj heq
      exact ht
    | cons u before =>
      obtain ⟨rfl, rfl⟩ := List.cons.inj heq
      exact has before k behind rfl

theorem unrestricted_of_isKeyword (h : ∀ t ∈ as, t.isKeyword = false) : Unrestricted as bs := by
  rintro before k behind rfl hk
  have hfalse := h k (List.mem_append_right before List.mem_cons_self)
  rw [hk] at hfalse
  cases hfalse

/-- No `(set)` follows where a name comes before any parenthesis. -/
theorem restricted?_eq_none {w : Token} (has : ∀ t ∈ as, Bracket.round.opens t = false)
    (hw : w.isIdentifier = true) (ts : List Token) : restricted? (as ++ w :: ts) = none := by
  cases h : restricted? (as ++ w :: ts) with
  | none => rfl
  | some declaration =>
    obtain ⟨spacing, opener, word, closer, spacing', hts, hb, ho, -⟩ := restricted?_eq_some h
    rw [Token.isIdentifier, beq_iff_eq] at hw
    rcases List.append_eq_append_iff.1 hts with ⟨more, rfl, hrest⟩ | ⟨more, rfl, hrest⟩
    · cases more with
      | nil =>
        obtain ⟨rfl, -⟩ := List.cons.inj hrest
        simp [Bracket.opens, Token.is, hw] at ho
      | cons u more =>
        obtain ⟨rfl, -⟩ := List.cons.inj hrest
        have hs := hb w (List.mem_append_right as List.mem_cons_self)
        simp [Token.isSpacing, hw] at hs
    · cases more with
      | nil =>
        obtain ⟨rfl, -⟩ := List.cons.inj hrest
        simp [Bracket.opens, Token.is, hw] at ho
      | cons u more =>
        obtain ⟨rfl, -⟩ := List.cons.inj hrest
        have hfalse := has opener (List.mem_append_right spacing List.mem_cons_self)
        rw [ho] at hfalse
        cases hfalse

/-- No `modifier(set)` starts up to the last name in front of the first parenthesis. -/
theorem unrestricted_of_name {w : Token} {more : List Token}
    (has : ∀ t ∈ as, Bracket.round.opens t = false) (hw : w.isIdentifier = true)
    (hmore : ∀ t ∈ more, t.isKeyword = false) : Unrestricted (as ++ w :: more) bs := by
  induction as with
  | nil =>
    refine unrestricted_of_isKeyword (List.forall_mem_cons.2 ⟨?_, hmore⟩)
    rw [Token.isIdentifier, beq_iff_eq] at hw
    simp [Token.isKeyword, hw]
  | cons t as ih =>
    rw [List.forall_mem_cons] at has
    have hnone : restricted? (as ++ w :: more ++ bs) = none := by
      rw [List.append_assoc]
      exact restricted?_eq_none has.2 hw (more ++ bs)
    exact unrestricted_cons_iff.2 ⟨fun _ => hnone, ih has.2⟩

/-- The pass copies such tokens. -/
theorem exists_relocateSettersAfter_append (head? : Option Token) (h : Unrestricted as bs) :
    ∃ more, (relocateSettersAfter config head? (as ++ bs)).tokens = as ++ more := by
  induction as generalizing head? with
  | nil => exact ⟨_, rfl⟩
  | cons t as ih =>
    rw [unrestricted_cons_iff] at h
    obtain ⟨more, hmore⟩ := ih (nextLineHead head? t) h.2
    have hnone : (if t.isKeyword then restricted? (as ++ bs) else none) = none := by
      split
      · exact h.1 ‹_›
      · rfl
    refine ⟨more, ?_⟩
    rw [List.cons_append, relocateSettersAfter]
    split
    · rename_i declaration hsome
      rw [hnone] at hsome
      cases hsome
    · rw [Edited.tokens_cons, hmore]
      rfl

/-! ### What stands behind a keyword after the pass -/

/-- What stands in place of some tokens after the pass: the tokens themselves, or those in front
    of a line end and the line of a setter, whose modifier stands in front of no mark. -/
inductive KeptOrCut (as : List Token) : List Token → Prop where
  | kept (more : List Token) : KeptOrCut as (as ++ more)
  | cut {line more : List Token} {lineEnd indent modifier : Token} (hline : line <+: as)
      (hend : lineEnd.isLinebreak = true) (hindent : indent.isWhitespace = true)
      (hmodifier : modifier.isKeyword = true) (hhead : isHeadToken modifier = false) :
      KeptOrCut as (line ++ lineEnd :: indent :: modifier :: more)

/-- A declaration behind a modifier holds every keyword that stands behind the modifier. -/
theorem exists_of_restricted?_append {pre declaration : List Token} (hv : v.isKeyword = true)
    (h : restricted? (pre ++ v :: ts) = some declaration) :
    ∃ before, before <:+ pre ∧ declaration = before ++ v :: ts := by
  obtain ⟨spacing, opener, word, closer, spacing', hts, hb, ho, hw, hc, hb', -⟩ :=
    restricted?_eq_some h
  rw [Token.isKeyword, beq_iff_eq] at hv
  -- None of the tokens in front of the declaration is a keyword.
  have hmem : v ∉ spacing ++ opener :: word :: closer :: spacing' := by
    simp only [List.mem_append, List.mem_cons]
    rintro (hmem | rfl | rfl | rfl | hmem)
    · have hs := hb v hmem
      simp [Token.isSpacing, hv] at hs
    · simp [Bracket.opens, Token.is, hv] at ho
    · simp [Token.is, hv] at hw
    · simp [Bracket.closes, Token.is, hv] at hc
    · have hs := hb' v hmem
      simp [Token.isSpacing, hv] at hs
  have hcut : pre ++ v :: ts
      = (spacing ++ opener :: word :: closer :: spacing') ++ declaration := by
    simp [hts]
  rcases List.append_eq_append_iff.1 hcut with ⟨more, hmore, hrest⟩ | ⟨more, hmore, hrest⟩
  · cases more with
    | nil => exact ⟨[], List.nil_suffix, hrest.symm⟩
    | cons u more =>
      obtain ⟨rfl, -⟩ := List.cons.inj hrest
      rw [hmore] at hmem
      exact absurd (List.mem_append_right pre List.mem_cons_self) hmem
  · exact ⟨more, ⟨_, hmore.symm⟩, hrest⟩

/-- A text is one line, or it is cut at its first line end. -/
theorem oneLine_or_exists_lineEnd (ts : List Token) :
    (∀ t ∈ ts, t.isLinebreak = false) ∨
      ∃ line lineEnd more, ts = line ++ lineEnd :: more ∧
        (∀ t ∈ line, t.isLinebreak = false) ∧ lineEnd.isLinebreak = true := by
  induction ts with
  | nil => exact .inl nofun
  | cons t ts ih =>
    cases ht : t.isLinebreak with
    | true => exact .inr ⟨[], t, ts, rfl, nofun, ht⟩
    | false =>
      rcases ih with h | ⟨line, lineEnd, more, rfl, hline, hend⟩
      · exact .inl (List.forall_mem_cons.2 ⟨ht, h⟩)
      · exact .inr ⟨t :: line, lineEnd, more, rfl, List.forall_mem_cons.2 ⟨ht, hline⟩, hend⟩

section Line

variable {line more : List Token} {lineEnd : Token} (hline : ∀ t ∈ line, t.isLinebreak = false)
include hline

theorem takeWhile_line (hend : lineEnd.isLinebreak = true) :
    (line ++ lineEnd :: more).takeWhile (fun u => !u.isLinebreak) = line := by
  rw [List.takeWhile_append_of_pos (by simpa using hline),
    List.takeWhile_cons_of_neg (by simp [hend]), List.append_nil]

theorem dropWhile_line (hend : lineEnd.isLinebreak = true) :
    (line ++ lineEnd :: more).dropWhile (fun u => !u.isLinebreak) = lineEnd :: more := by
  rw [List.dropWhile_append_of_pos (by simpa using hline),
    List.dropWhile_cons_of_neg (by simp [hend])]

end Line

theorem isLinebreak_of_isKeyword (h : t.isKeyword = true) : t.isLinebreak = false := by
  rw [Token.isKeyword, beq_iff_eq] at h
  simp [Token.isLinebreak, h]

/-- On the line of a declaration the tokens behind a keyword are kept up to the line of its
    setter. -/
theorem exists_keptOrCut_line (head? : Option Token) {modifier : Token} {between : List Token}
    (hv : v.isKeyword = true) (hm : modifier.isKeyword = true)
    (hhead : isHeadToken modifier = false)
    (hbetween : ∀ t ∈ between, t.isLinebreak = false) (rest : List Token) :
    let line := (between ++ v :: (as ++ bs)).takeWhile fun u => !u.isLinebreak
    let after := (between ++ v :: (as ++ bs)).dropWhile fun u => !u.isLinebreak
    ∃ behind, line ++ setterLine config head? modifier after ++ rest = between ++ v :: behind ∧
      KeptOrCut as behind := by
  intro line after
  have hfront : ∀ t ∈ between ++ [v], t.isLinebreak = false := by
    rw [List.forall_mem_append, List.forall_mem_singleton]
    exact ⟨hbetween, isLinebreak_of_isKeyword hv⟩
  rcases oneLine_or_exists_lineEnd as with has | ⟨l, e, m, rfl, hl, he⟩
  · have hlong : ∀ t ∈ between ++ [v] ++ as, (!t.isLinebreak) = true := by
      intro t ht
      rw [Bool.not_eq_true']
      exact (List.mem_append.1 ht).elim (hfront t) (has t)
    have hline : line = between ++ v :: (as ++ bs.takeWhile fun u => !u.isLinebreak) := by
      have hwhole : between ++ v :: (as ++ bs) = between ++ [v] ++ as ++ bs := by simp
      show (between ++ v :: (as ++ bs)).takeWhile _ = _
      rw [hwhole, List.takeWhile_append_of_pos hlong]
      simp
    refine ⟨as ++ ((bs.takeWhile fun u => !u.isLinebreak)
      ++ (setterLine config head? modifier after ++ rest)), ?_, .kept _⟩
    simp [hline]
  · have hwhole : between ++ v :: (l ++ e :: m ++ bs) = between ++ [v] ++ l ++ e :: (m ++ bs) := by
      simp
    have hlong : ∀ t ∈ between ++ [v] ++ l, t.isLinebreak = false := by
      rw [List.forall_mem_append]
      exact ⟨hfront, hl⟩
    have hline : line = between ++ [v] ++ l := by
      rw [← takeWhile_line hlong he, ← hwhole]
    have hafter : after = e :: (m ++ bs) := by
      rw [← dropWhile_line hlong he, ← hwhole]
    refine ⟨l ++ e :: .whitespace (indentText head? ++ config.indentUnit) :: modifier
      :: .space :: .identifier "set" :: rest, ?_,
      .cut (List.prefix_append l (e :: m)) he rfl hm hhead⟩
    rw [hline, setterLine, hafter]
    simp

/-- **Behind a keyword the pass keeps what it does not move**, up to a line that it writes. -/
theorem exists_keptOrCut_of_relocateSetters (head? : Option Token) (pre : List Token)
    (hv : v.isKeyword = true) (h : Unrestricted (v :: as) bs)
    (hplain : ∀ t ∈ pre ++ v :: (as ++ bs), t.isKeyword = true → isHeadToken t = false) :
    ∃ before behind,
      (relocateSettersAfter config head? (pre ++ v :: (as ++ bs))).tokens = before ++ v :: behind ∧
        KeptOrCut as behind := by
  generalize hts : pre ++ v :: (as ++ bs) = ts at hplain
  fun_induction relocateSettersAfter config head? ts generalizing pre with
  | case1 => simp at hts
  | case2 head? t ts declaration hr line after ih =>
    obtain ⟨hm, hd⟩ : t.isKeyword = true ∧ restricted? ts = some declaration :=
      Option.ite_none_right_eq_some.1 hr
    rw [List.forall_mem_cons] at hplain
    cases pre with
    | nil =>
      obtain ⟨rfl, rfl⟩ := List.cons.inj hts
      rw [(unrestricted_cons_iff.1 h).1 hv] at hd
      cases hd
    | cons u pre =>
      obtain ⟨rfl, rfl⟩ := List.cons.inj hts
      obtain ⟨between, hsuffix, rfl⟩ := exists_of_restricted?_append hv hd
      rw [Edited.tokens_counted, Edited.tokens_append]
      -- The keyword stands on the line of the declaration, or behind that line.
      rcases oneLine_or_exists_lineEnd between with hone | ⟨l, e, m, rfl, hl, he⟩
      · obtain ⟨behind, htokens, hcut⟩ := exists_keptOrCut_line head? hv hm (hplain.1 hm) hone
          (relocateSettersAfter config none after).tokens
        exact ⟨between, behind, htokens, hcut⟩
      · have hafter : after = e :: m ++ v :: (as ++ bs) := by
          have hwhole : l ++ e :: m ++ v :: (as ++ bs) = l ++ e :: (m ++ v :: (as ++ bs)) := by
            simp
          show (l ++ e :: m ++ v :: (as ++ bs)).dropWhile _ = _
          rw [hwhole, dropWhile_line hl he]
          rfl
        have hplainAfter : ∀ t ∈ after, t.isKeyword = true → isHeadToken t = false := by
          intro t ht
          apply hplain.2 t
          rw [hafter] at ht
          rcases List.mem_append.1 ht with ht | ht
          · exact List.mem_append_left _ (hsuffix.subset (List.mem_append_right l ht))
          · exact List.mem_append_right _ ht
        obtain ⟨before, behind, htokens, hcut⟩ := ih (e :: m) hafter.symm hplainAfter
        refine ⟨line ++ setterLine config head? u after ++ before, behind, ?_, hcut⟩
        rw [htokens]
        simp
  | case3 head? t ts hr ih =>
    rw [List.forall_mem_cons] at hplain
    cases pre with
    | nil =>
      obtain ⟨rfl, rfl⟩ := List.cons.inj hts
      obtain ⟨more, hmore⟩ : ∃ more, (relocateSettersAfter config (nextLineHead head? v)
          (as ++ bs)).tokens = as ++ more :=
        exists_relocateSettersAfter_append _ (unrestricted_cons_iff.1 h).2
      exact ⟨[], as ++ more, by rw [Edited.tokens_cons, hmore]; rfl, .kept more⟩
    | cons u pre =>
      obtain ⟨rfl, rfl⟩ := List.cons.inj hts
      obtain ⟨before, behind, htokens, hcut⟩ := ih pre rfl hplain.2
      exact ⟨u :: before, behind, by rw [Edited.tokens_cons, htokens]; rfl, hcut⟩

/-- **The pass makes no mark**: if a mark stands behind a keyword after the pass, it stood there
    before, in front of tokens that make none. -/
theorem KeptOrCut.marked {lead more behind : List Token} {stop : Token}
    (h : KeptOrCut (lead ++ (more ++ [stop])) behind) (hm : Marked behind)
    (hmore : ∀ t ∈ more, t.is .symbol "!" = false) (hstop : stop.is .symbol "!" = false)
    (hhead : isHeadToken stop = false) : Marked lead := by
  have hmarks : ∀ t ∈ more ++ [stop], t.is .symbol "!" = false := by
    rw [List.forall_mem_append, List.forall_mem_singleton]
    exact ⟨hmore, hstop⟩
  cases h with
  | kept rest =>
    have hwhole : lead ++ (more ++ [stop]) ++ rest = lead ++ more ++ stop :: rest := by simp
    rw [hwhole] at hm
    exact (hm.of_append_cons hhead hstop).of_append hmore
  | @cut line rest lineEnd indent modifier hline hend hindent hmodifier hhead' =>
    have hwhole : line ++ lineEnd :: indent :: modifier :: rest
        = line ++ [lineEnd, indent] ++ modifier :: rest := by simp
    have hkeyword : modifier.is .symbol "!" = false := by
      rw [Token.isKeyword, beq_iff_eq] at hmodifier
      simp [Token.is, hmodifier]
    have hlayout : ∀ t ∈ [lineEnd, indent], t.is .symbol "!" = false := by
      rw [Token.isLinebreak, beq_iff_eq] at hend
      rw [Token.isWhitespace, beq_iff_eq] at hindent
      simp [Token.is, hend, hindent]
    rw [hwhole] at hm
    obtain ⟨after, hafter⟩ := hline
    have hfront : Marked line := (hm.of_append_cons hhead' hkeyword).of_append hlayout
    exact (hafter ▸ hfront.append after).of_append hmarks

end Kotlinize
