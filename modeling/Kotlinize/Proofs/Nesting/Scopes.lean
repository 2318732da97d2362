import Kotlinize.Token.Bracket
import Mathlib

namespace Kotlinize

/-!
# Nested scopes

A text is properly nested if each closing token closes the bracket that was opened last, and
none is left open.

* `scopesAfter`, `openScopes` — the brackets that are open behind a token, and behind a text.
* `Nested` — every bracket of a text is closed in the reverse order of opening.
* `Nested.openScopes_eq` — a nested run may stand anywhere and changes nothing around it.
* `nested_inside` — the partner of a bracket is found by counting the brackets of one pair
  alone; where the text can be read, what stands between the two is nested.
-/

variable {b : Bracket} {t : Token} {ts : List Token} {scopes scopes' : List Bracket}

/-! ### Open brackets -/

/-- The brackets that are open behind a token, the innermost first, where `scopes` are open in
    front of it.  There are none if the token closes anything but the innermost, or opens or
    closes no pair though its kind says so. -/
def scopesAfter (scopes : List Bracket) (t : Token) : Option (List Bracket) :=
  match t.kind with
  | .startOfScope => (Bracket.ofOpener? t.text).map (· :: scopes)
  | .endOfScope =>
    match scopes with
    | [] => none
    | b :: outer => if t.text = b.closer then some outer else none
  | _ => some scopes

/-- The brackets that are open behind a text, where `scopes` are open in front of it. -/
def openScopes (scopes : List Bracket) (ts : List Token) : Option (List Bracket) :=
  ts.foldlM scopesAfter scopes

/-- Every closing token closes the bracket opened last, and none is left open; a token of a
    scope's kind has the text of one of the three pairs. -/
def Nested (ts : List Token) : Prop := openScopes [] ts = some []

instance (ts : List Token) : Decidable (Nested ts) :=
  inferInstanceAs (Decidable (openScopes [] ts = some []))

@[simp] theorem openScopes_nil (scopes : List Bracket) : openScopes scopes [] = some scopes := rfl

@[simp] theorem openScopes_cons (scopes : List Bracket) (t : Token) (ts : List Token) :
    openScopes scopes (t :: ts) = (scopesAfter scopes t).bind (openScopes · ts) :=
  List.foldlM_cons

@[simp] theorem openScopes_append (scopes : List Bracket) (as bs : List Token) :
    openScopes scopes (as ++ bs) = (openScopes scopes as).bind (openScopes · bs) :=
  List.foldlM_append

/-! ### One token -/

theorem Bracket.ofOpener?_eq_some_iff {text : String} :
    Bracket.ofOpener? text = some b ↔ text = b.opener := by
  constructor
  · intro h
    unfold Bracket.ofOpener? at h
    have hfound := List.find?_some h
    exact (beq_iff_eq.1 hfound).symm
  · rintro rfl
    exact Bracket.ofOpener?_opener b

theorem Bracket.eq_of_closes {c : Bracket} (hb : b.closes t = true) (hc : c.closes t = true) :
    b = c := by
  have h : b.closer = c.closer := (Token.is_iff.1 hb).2.symm.trans (Token.is_iff.1 hc).2
  revert h
  cases b <;> cases c <;> decide

theorem scopesAfter_of_opens (h : b.opens t = true) :
    scopesAfter scopes t = some (b :: scopes) := by
  obtain ⟨hk, ht⟩ := Token.is_iff.1 h
  simp [scopesAfter, hk, ht, Bracket.ofOpener?_opener]

theorem scopesAfter_of_closes (h : b.closes t = true) :
    scopesAfter (b :: scopes) t = some scopes := by
  obtain ⟨hk, ht⟩ := Token.is_iff.1 h
  simp [scopesAfter, hk, ht]

theorem scopesAfter_of_scopeStep (h : t.scopeStep = 0) : scopesAfter scopes t = some scopes := by
  unfold Token.scopeStep at h
  unfold scopesAfter
  split at h <;> simp_all

/-- **What a token does to the open brackets**: it opens one, closes the innermost one, or has
    no part in them. -/
theorem scopesAfter_eq_some (h : scopesAfter scopes t = some scopes') :
    (∃ b, Bracket.opens b t = true ∧ scopes' = b :: scopes)
      ∨ (∃ b, Bracket.closes b t = true ∧ scopes = b :: scopes')
      ∨ t.scopeStep = 0 ∧ scopes' = scopes := by
  unfold scopesAfter at h
  split at h
  · rename_i hk
    obtain ⟨b, hb, rfl⟩ := Option.map_eq_some_iff.1 h
    exact .inl ⟨b, Token.is_iff.2 ⟨hk, Bracket.ofOpener?_eq_some_iff.1 hb⟩, rfl⟩
  · rename_i hk
    split at h
    · simp at h
    · rename_i b outer
      obtain ⟨ht, hs⟩ := Option.ite_none_right_eq_some.1 h
      exact .inr (.inl ⟨b, Token.is_iff.2 ⟨hk, ht⟩, by simpa using hs⟩)
  · rename_i ho hc
    refine .inr (.inr ⟨?_, by simpa using h.symm⟩)
    unfold Token.scopeStep
    split <;> simp_all

/-- A closing token can only close the innermost bracket. -/
theorem eq_cons_of_closes (hc : b.closes t = true) (h : scopesAfter scopes t = some scopes') :
    scopes = b :: scopes' := by
  obtain ⟨c, ho, -⟩ | ⟨c, hc', rfl⟩ | ⟨hz, -⟩ := scopesAfter_eq_some h
  · have hopen := (Token.is_iff.1 ho).1
    rw [(Token.is_iff.1 hc).1] at hopen
    simp at hopen
  · rw [Bracket.eq_of_closes hc hc']
  · simp [Token.scopeStep, (Token.is_iff.1 hc).1] at hz

/-! ### Runs of tokens -/

/-- Tokens that are no brackets leave open what is open. -/
theorem openScopes_of_scopeStep (h : ∀ t ∈ ts, t.scopeStep = 0) :
    openScopes scopes ts = some scopes := by
  induction ts with
  | nil => rfl
  | cons t ts ih =>
    rw [List.forall_mem_cons] at h
    simp [scopesAfter_of_scopeStep h.1, ih h.2]

/-- A text in front of which more is open leaves that open too. -/
theorem openScopes_append_outer (h : openScopes scopes ts = some scopes')
    (outer : List Bracket) : openScopes (scopes ++ outer) ts = some (scopes' ++ outer) := by
  induction ts generalizing scopes with
  | nil => simpa using h
  | cons t ts ih =>
    rw [openScopes_cons, Option.bind_eq_some_iff] at h
    obtain ⟨between, ht, hts⟩ := h
    have ht' : scopesAfter (scopes ++ outer) t = some (between ++ outer) := by
      obtain ⟨b, ho, rfl⟩ | ⟨b, hc, rfl⟩ | ⟨hz, rfl⟩ := scopesAfter_eq_some ht
      · exact scopesAfter_of_opens ho
      · exact scopesAfter_of_closes hc
      · exact scopesAfter_of_scopeStep hz
    rw [openScopes_cons, ht']
    exact ih hts

/-- A nested run may stand anywhere: it leaves open what is open. -/
theorem Nested.openScopes_eq (h : Nested ts) (scopes : List Bracket) :
    openScopes scopes ts = some scopes :=
  openScopes_append_outer h scopes

/-! ### Partners -/

/-- The count of one pair goes on as long as `inner` is open above the bracket whose partner is
    looked for.  Where it ends, nothing of `inner` is open any more. -/
theorem openScopes_inside {depth : Nat} {e : Enclosed} {inner outer out : List Bracket}
    (h : b.enclosed? depth ts = some e) (hd : inner.count b = depth)
    (hr : openScopes (inner ++ b :: outer) ts = some out) :
    openScopes inner e.inside = some [] ∧ openScopes outer e.tail = some out := by
  fun_induction Bracket.enclosed? b depth ts generalizing e inner with
  | case1 => simp at h
  | case2 depth t ts ho ih =>
    obtain ⟨e', he', rfl⟩ := Option.map_eq_some_iff.1 h
    have ht : scopesAfter inner t = some (b :: inner) := scopesAfter_of_opens ho
    rw [openScopes_cons, scopesAfter_of_opens ho, Option.bind_some, ← List.cons_append] at hr
    simpa [Enclosed.cons, ht] using ih he' (by simpa using hd) hr
  | case3 t ts ho hc =>
    obtain rfl : _ = e := by simpa using h
    rw [openScopes_cons, Option.bind_eq_some_iff] at hr
    obtain ⟨between, ht, hts⟩ := hr
    -- The innermost bracket is one of the pair, and there is none in `inner`.
    obtain ⟨rfl, hrest⟩ | ⟨inner', rfl, -⟩ := List.append_eq_cons_iff.1 (eq_cons_of_closes hc ht)
    · obtain ⟨-, rfl⟩ := List.cons.inj hrest
      exact ⟨rfl, hts⟩
    · simp at hd
  | case4 depth t ts ho hc hne ih =>
    obtain ⟨e', he', rfl⟩ := Option.map_eq_some_iff.1 h
    rw [openScopes_cons, Option.bind_eq_some_iff] at hr
    obtain ⟨between, ht, hts⟩ := hr
    obtain ⟨rfl, -⟩ | ⟨inner', rfl, rfl⟩ := List.append_eq_cons_iff.1 (eq_cons_of_closes hc ht)
    · exact absurd hd.symm hne
    · have hin := ih he' (by rw [List.count_cons_self] at hd; omega) hts
      simpa [Enclosed.cons, scopesAfter_of_closes hc] using hin
  | case5 depth t ts ho hc ih =>
    obtain ⟨e', he', rfl⟩ := Option.map_eq_some_iff.1 h
    rw [openScopes_cons, Option.bind_eq_some_iff] at hr
    obtain ⟨between, ht, hts⟩ := hr
    -- A bracket of another pair opens above those of `inner`, or closes the innermost of them.
    obtain ⟨c, ho', rfl⟩ | ⟨c, hc', hcons⟩ | ⟨hz, rfl⟩ := scopesAfter_eq_some ht
    · have hne : c ≠ b := by
        rintro rfl
        exact ho ho'
      have hd' : (c :: inner).count b = depth := by simpa [List.count_cons, hne] using hd
      have hin := ih he' hd' hts
      simpa [Enclosed.cons, scopesAfter_of_opens ho'] using hin
    · have hne : c ≠ b := by
        rintro rfl
        exact hc hc'
      obtain ⟨rfl, hrest⟩ | ⟨inner', rfl, rfl⟩ := List.append_eq_cons_iff.1 hcons
      · exact absurd (List.cons.inj hrest).1.symm hne
      · have hin := ih he' (by simpa [List.count_cons, hne] using hd) hts
        simpa [Enclosed.cons, scopesAfter_of_closes hc'] using hin
    · simpa [Enclosed.cons, scopesAfter_of_scopeStep hz] using ih he' hd hts

/-- **Counting one pair finds the true partner.**  Where a text can be read from a bracket on,
    what stands between the bracket and the partner that the count finds is nested, and behind the
    partner is open what was open in front of the bracket. -/
theorem nested_inside {opener : Token} {e : Enclosed} {out : List Bracket}
    (ho : b.opens opener = true) (h : b.enclosed? 0 ts = some e)
    (hr : openScopes scopes (opener :: ts) = some out) :
    Nested e.inside ∧ openScopes scopes e.tail = some out := by
  rw [openScopes_cons, scopesAfter_of_opens ho] at hr
  exact openScopes_inside h rfl hr

end Kotlinize
