import Kotlinize.Proofs.Indices

namespace Kotlinize

/-!
# Partners of brackets

The partner of a bracket is found by a counter that goes up at each opener of its pair and down at
each closer, whatever the brackets of the other pairs do.  This file says what the search finds in
any text, and that it finds the true partner where the text is properly nested.

* `Bracket.counter` — where the counter stands behind a run of tokens.
* `counter_of_enclosed?`, `counter_of_enclosed?_eq_none` — how it runs up to the partner, and in a
  text without one.
* `IsPartner` — a closer brings the counter back to zero for the first time;
  `IsPartner.opener_unique` says that it does so for one opener only.
* `NestedBrackets` — the brackets of the three pairs are properly nested.
* `matchingClose?_isLeast` — what the search for a partner finds.
-/

variable {b : Bracket} {t opener : Token} {ts rest pre : List Token} {o c j depth : Nat}

/-! ### The counter -/

namespace Bracket

/-- The counter behind a token, in front of which it stood at `n`. -/
def countStep (b : Bracket) (n : Int) (t : Token) : Int :=
  if b.opens t then n + 1 else if b.closes t then n - 1 else n

/-- Where the counter stands behind a run of tokens. -/
def counter (b : Bracket) (ts : List Token) : Int := ts.foldl b.countStep 0

theorem foldl_countStep (b : Bracket) (n : Int) (ts : List Token) :
    ts.foldl b.countStep n = n + (ts.countP b.opens - ts.countP b.closes : Int) := by
  induction ts generalizing n with
  | nil => simp
  | cons t ts ih =>
    rw [List.foldl_cons, ih, countStep, List.countP_cons, List.countP_cons]
    by_cases ho : b.opens t = true
    · simp only [ho, not_closes_of_opens ho, if_true, Bool.false_eq_true, if_false]
      omega
    · by_cases hc : b.closes t = true <;> simp only [ho, hc, if_true, if_false, Bool.false_eq_true]
        <;> omega

/-- It counts openers less closers. -/
theorem counter_eq (b : Bracket) (ts : List Token) :
    b.counter ts = ts.countP b.opens - ts.countP b.closes := by
  rw [counter, foldl_countStep, Int.zero_add]

@[simp] theorem counter_nil (b : Bracket) : b.counter [] = 0 := rfl

@[simp] theorem counter_append (b : Bracket) (as bs : List Token) :
    b.counter (as ++ bs) = b.counter as + b.counter bs := by
  simp only [counter_eq, List.countP_append]
  omega

theorem counter_cons (b : Bracket) (t : Token) (ts : List Token) :
    b.counter (t :: ts) = b.countStep 0 t + b.counter ts :=
  counter_append b [t] ts

theorem counter_of_opens (h : b.opens t = true) (ts : List Token) :
    b.counter (t :: ts) = b.counter ts + 1 := by
  rw [counter_cons, countStep, if_pos h]
  omega

theorem counter_of_closes (h : b.closes t = true) (ts : List Token) :
    b.counter (t :: ts) = b.counter ts - 1 := by
  have ho : ¬ b.opens t = true := fun ho => by
    rw [not_closes_of_opens ho] at h
    cases h
  rw [counter_cons, countStep, if_neg ho, if_pos h]
  omega

theorem counter_of_other (ho : ¬ b.opens t = true) (hc : ¬ b.closes t = true) (ts : List Token) :
    b.counter (t :: ts) = b.counter ts := by
  rw [counter_cons, countStep, if_neg ho, if_neg hc, Int.zero_add]

end Bracket

/-! ### The search -/

/-- What holds of the empty run, and of a token in front of any run, holds of each run that a text
    starts with. -/
theorem forall_prefix_cons {P : List Token → Prop} (hnil : P [])
    (hcons : ∀ pre, pre <+: ts → P (t :: pre)) : ∀ pre, pre <+: t :: ts → P pre := by
  intro pre hpre
  rcases List.prefix_cons_iff.1 hpre with rfl | ⟨pre', rfl, hpre'⟩
  · exact hnil
  · exact hcons pre' hpre'

/-- **Up to the partner**, `depth` brackets of the pair apart, the counter is never below zero, and
    in front of the partner it stands at zero. -/
theorem counter_of_enclosed? {e : Enclosed} (h : b.enclosed? depth ts = some e) :
    (∀ pre, pre <+: e.inside → 0 ≤ depth + b.counter pre) ∧ depth + b.counter e.inside = 0 := by
  fun_induction Bracket.enclosed? b depth ts generalizing e with
  | case1 => cases h
  | case2 depth t ts ho ih =>
    obtain ⟨e', he', rfl⟩ := Option.map_eq_some_iff.1 h
    obtain ⟨hpre, hend⟩ := ih he'
    simp only [Enclosed.cons, Bracket.counter_of_opens ho]
    refine ⟨forall_prefix_cons (by simp) fun pre hp => ?_, by omega⟩
    have := hpre pre hp
    rw [Bracket.counter_of_opens ho]
    omega
  | case3 t ts ho hc =>
    obtain rfl : _ = e := by simpa using h
    simp
  | case4 depth t ts ho hc hne ih =>
    obtain ⟨e', he', rfl⟩ := Option.map_eq_some_iff.1 h
    obtain ⟨hpre, hend⟩ := ih he'
    simp only [Enclosed.cons, Bracket.counter_of_closes hc]
    refine ⟨forall_prefix_cons (by simp) fun pre hp => ?_, by omega⟩
    have := hpre pre hp
    rw [Bracket.counter_of_closes hc]
    omega
  | case5 depth t ts ho hc ih =>
    obtain ⟨e', he', rfl⟩ := Option.map_eq_some_iff.1 h
    obtain ⟨hpre, hend⟩ := ih he'
    simp only [Enclosed.cons, Bracket.counter_of_other ho hc]
    refine ⟨forall_prefix_cons (by simp) fun pre hp => ?_, hend⟩
    rw [Bracket.counter_of_other ho hc]
    exact hpre pre hp

/-- Without a partner, the counter is never below zero in the whole text. -/
theorem counter_of_enclosed?_eq_none (h : b.enclosed? depth ts = none) :
    ∀ pre, pre <+: ts → 0 ≤ depth + b.counter pre := by
  fun_induction Bracket.enclosed? b depth ts with
  | case1 => simp
  | case2 depth t ts ho ih =>
    refine forall_prefix_cons (by simp) fun pre hp => ?_
    have := ih (Option.map_eq_none_iff.1 h) pre hp
    rw [Bracket.counter_of_opens ho]
    omega
  | case3 => cases h
  | case4 depth t ts ho hc hne ih =>
    refine forall_prefix_cons (by simp) fun pre hp => ?_
    have := ih (Option.map_eq_none_iff.1 h) pre hp
    rw [Bracket.counter_of_closes hc]
    omega
  | case5 depth t ts ho hc ih =>
    refine forall_prefix_cons (by simp) fun pre hp => ?_
    rw [Bracket.counter_of_other ho hc]
    exact ih (Option.map_eq_none_iff.1 h) pre hp

/-! ### The search by index -/

/-- The tokens from one index to another, both included. -/
def stretch (ts : List Token) (o c : Nat) : List Token := (ts.take (c + 1)).drop o

theorem stretch_of_drop (h : ts.drop o = opener :: rest) (hj : o ≤ j) :
    stretch ts o j = opener :: rest.take (j - o) := by
  rw [stretch, List.drop_take, h, show j + 1 - o = j - o + 1 by omega, List.take_succ_cons]

theorem stretch_append (ts : List Token) (ho : o ≤ j) (hj : j < c) :
    stretch ts o c = stretch ts o j ++ stretch ts (j + 1) c := by
  rw [stretch, stretch, stretch, List.drop_take, List.drop_take, List.drop_take,
    show c + 1 - o = j + 1 - o + (c + 1 - (j + 1)) by omega, List.take_add, List.drop_drop,
    show o + (j + 1 - o) = j + 1 by omega]

/-- A closer of the pair brings the counter, which starts in front of the opener, to zero, and the
    counter is above zero before. -/
structure IsPartner (b : Bracket) (ts : List Token) (o c : Nat) : Prop where
  lt : o < c
  closes : ∃ t, ts[c]? = some t ∧ b.closes t = true
  counter_eq : b.counter (stretch ts o c) = 0
  counter_pos : ∀ j, o ≤ j → j < c → 0 < b.counter (stretch ts o j)

theorem isPartner_of_enclosed? {e : Enclosed} (h : ts.drop o = opener :: rest)
    (hb : b.opens opener = true) (he : b.enclosed? 0 rest = some e) :
    IsPartner b ts o (o + 1 + e.inside.length) := by
  obtain ⟨hpre, hend⟩ := counter_of_enclosed? he
  have hclose := Bracket.closes_of_enclosed? he
  have hrest : rest = e.inside ++ e.close :: e.tail := (Bracket.whole_of_enclosed? he).symm
  refine ⟨by omega, ⟨e.close, ?_, hclose⟩, ?_, fun j hoj hjc => ?_⟩
  · rw [Nat.add_assoc, ← List.getElem?_drop, h, Nat.add_comm, List.getElem?_cons_succ, hrest,
      List.getElem?_append_right (Nat.le_refl _), Nat.sub_self, List.getElem?_cons_zero]
  · have htake : rest.take (o + 1 + e.inside.length - o) = e.inside ++ [e.close] := by
      rw [hrest, show o + 1 + e.inside.length - o = e.inside.length + 1 by omega,
        List.take_length_add_append, List.take_one, List.head?_cons, Option.toList_some]
    rw [stretch_of_drop h (by omega), htake, Bracket.counter_of_opens hb, Bracket.counter_append,
      Bracket.counter_of_closes hclose, Bracket.counter_nil]
    omega
  · have htake : rest.take (j - o) = e.inside.take (j - o) := by
      rw [hrest, List.take_append_of_le_length (by omega)]
    have := hpre _ (List.take_prefix (j - o) e.inside)
    rw [stretch_of_drop h hoj, htake, Bracket.counter_of_opens hb]
    omega

/-- The search finds nothing but partners. -/
theorem isPartner_of_matchingClose? (h : ts[o]? = some opener) (hb : b.opens opener = true)
    (hc : matchingClose? ts o = some c) : IsPartner b ts o c := by
  have hdrop := drop_of_getElem? h
  rw [matchingClose?_of_drop hdrop hb, Option.map_eq_some_iff] at hc
  obtain ⟨e, he, rfl⟩ := hc
  exact isPartner_of_enclosed? hdrop hb he

/-- Where the search finds nothing, the counter is above zero in the whole text. -/
theorem counter_stretch_pos (h : ts[o]? = some opener) (hb : b.opens opener = true)
    (hc : matchingClose? ts o = none) (hj : o ≤ j) : 0 < b.counter (stretch ts o j) := by
  have hdrop := drop_of_getElem? h
  rw [matchingClose?_of_drop hdrop hb, Option.map_eq_none_iff] at hc
  have := counter_of_enclosed?_eq_none hc _ (List.take_prefix (j - o) _)
  rw [stretch_of_drop hdrop hj, Bracket.counter_of_opens hb]
  omega

/-- **One opener for each partner.** -/
theorem IsPartner.opener_unique {b' : Bracket} {o' : Nat} (h : IsPartner b ts o c)
    (h' : IsPartner b' ts o' c) : o = o' := by
  obtain ⟨t, ht, hclose⟩ := h.closes
  obtain ⟨t', ht', hclose'⟩ := h'.closes
  obtain rfl : t = t' := Option.some.inj (ht.symm.trans ht')
  obtain rfl : b = b' := Bracket.eq_of_closes hclose hclose'
  -- Between two openers the counter of the first would come to zero too early.
  have hnot : ∀ {i k}, IsPartner b ts i c → IsPartner b ts k c → ¬ i < k := by
    intro i k hi hk hlt
    obtain ⟨k, rfl⟩ : ∃ m, k = m + 1 := ⟨k - 1, by omega⟩
    have hkc := hk.lt
    have hsum := hi.counter_eq
    rw [stretch_append ts (j := k) (by omega) (by omega), Bracket.counter_append,
      hk.counter_eq] at hsum
    have := hi.counter_pos k (by omega) (by omega)
    omega
  have hle := hnot h h'
  have hge := hnot h' h
  omega

/-! ### Nested brackets -/

/-- Whether a token opens or closes one of the three pairs. -/
def isBracket (t : Token) : Bool := Bracket.all.any fun b => b.opens t || b.closes t

/-- The brackets of the three pairs are properly nested; the other tokens do not matter. -/
def NestedBrackets (ts : List Token) : Prop := Nested (ts.filter isBracket)

instance (ts : List Token) : Decidable (NestedBrackets ts) :=
  inferInstanceAs (Decidable (Nested (ts.filter isBracket)))

theorem isBracket_of_opens (h : b.opens t = true) : isBracket t = true := by
  cases b <;> simp [isBracket, Bracket.all, h]

theorem isBracket_of_closes (h : b.closes t = true) : isBracket t = true := by
  cases b <;> simp [isBracket, Bracket.all, h]

theorem isBracket_of_scopeStep (h : t.scopeStep = 0) : isBracket t = false := by
  refine Bool.eq_false_iff.2 fun ht => ?_
  obtain ⟨b, -, hb⟩ := List.any_eq_true.1 ht
  rcases Bool.or_eq_true_iff.1 hb with ho | hc
  · simp [Token.scopeStep, (Token.is_iff.1 ho).1] at h
  · simp [Token.scopeStep, (Token.is_iff.1 hc).1] at h

/-- What is left open by a text is left open by its brackets. -/
theorem openScopes_filter_isBracket {scopes out : List Bracket}
    (h : openScopes scopes ts = some out) :
    openScopes scopes (ts.filter isBracket) = some out := by
  induction ts generalizing scopes with
  | nil => exact h
  | cons t ts ih =>
    rw [openScopes_cons, Option.bind_eq_some_iff] at h
    obtain ⟨between, ht, hts⟩ := h
    obtain ⟨b, ho, -⟩ | ⟨b, hc, -⟩ | ⟨hz, rfl⟩ := scopesAfter_eq_some ht
    · rw [List.filter_cons_of_pos (isBracket_of_opens ho), openScopes_cons, ht, Option.bind_some,
        ih hts]
    · rw [List.filter_cons_of_pos (isBracket_of_closes hc), openScopes_cons, ht, Option.bind_some,
        ih hts]
    · rw [List.filter_cons_of_neg (by rw [isBracket_of_scopeStep hz]; decide), ih hts]

/-- A nested text has nested brackets. -/
theorem Nested.nestedBrackets (h : Nested ts) : NestedBrackets ts := openScopes_filter_isBracket h

theorem counter_filter_isBracket (b : Bracket) (ts : List Token) :
    b.counter (ts.filter isBracket) = b.counter ts := by
  have hcount : ∀ p : Token → Bool, (∀ t, p t = true → isBracket t = true) →
      (ts.filter isBracket).countP p = ts.countP p := fun p hp => by
    rw [List.countP_filter]
    exact List.countP_congr fun t _ => by simpa using hp t
  rw [Bracket.counter_eq, Bracket.counter_eq, hcount _ fun _ => isBracket_of_opens,
    hcount _ fun _ => isBracket_of_closes]

theorem enclosed?_filter_isBracket {e : Enclosed} (h : b.enclosed? depth ts = some e) :
    b.enclosed? depth (ts.filter isBracket)
      = some ⟨e.inside.filter isBracket, e.close, e.tail.filter isBracket⟩ := by
  fun_induction Bracket.enclosed? b depth ts generalizing e with
  | case1 => cases h
  | case2 depth t ts ho ih =>
    obtain ⟨e', he', rfl⟩ := Option.map_eq_some_iff.1 h
    simp [isBracket_of_opens ho, Bracket.enclosed?, ho, ih he', Enclosed.cons]
  | case3 t ts ho hc =>
    obtain rfl : _ = e := by simpa using h
    simp [isBracket_of_closes hc, Bracket.enclosed?, ho, hc]
  | case4 depth t ts ho hc hne ih =>
    obtain ⟨e', he', rfl⟩ := Option.map_eq_some_iff.1 h
    simp [isBracket_of_closes hc, Bracket.enclosed?, ho, hc, hne, ih he', Enclosed.cons]
  | case5 depth t ts ho hc ih =>
    obtain ⟨e', he', rfl⟩ := Option.map_eq_some_iff.1 h
    cases ht : isBracket t <;> simp [ht, Bracket.enclosed?, ho, hc, ih he', Enclosed.cons]

/-- The counter of a pair goes with the open brackets of the pair. -/
theorem count_of_scopesAfter {scopes scopes' : List Bracket}
    (h : scopesAfter scopes t = some scopes') (b : Bracket) :
    (scopes'.count b : Int) = b.countStep (scopes.count b) t := by
  unfold Bracket.countStep
  obtain ⟨b', ho, rfl⟩ | ⟨b', hc, rfl⟩ | ⟨hz, rfl⟩ := scopesAfter_eq_some h
  · obtain ⟨hkind, htext⟩ := Token.is_iff.1 ho
    cases b <;> cases b' <;>
      simp [Bracket.opens, Bracket.closes, Token.is, hkind, htext, Bracket.opener]
  · obtain ⟨hkind, htext⟩ := Token.is_iff.1 hc
    cases b <;> cases b' <;>
      simp [Bracket.opens, Bracket.closes, Token.is, hkind, htext, Bracket.closer]
  · have hno := isBracket_of_scopeStep hz
    have ho : ¬ b.opens t = true := fun ho => by simp [isBracket_of_opens ho] at hno
    have hc : ¬ b.closes t = true := fun hc => by simp [isBracket_of_closes hc] at hno
    rw [if_neg ho, if_neg hc]

theorem count_of_openScopes {scopes out : List Bracket} (h : openScopes scopes ts = some out)
    (b : Bracket) : (out.count b : Int) = scopes.count b + b.counter ts := by
  suffices hfold : (out.count b : Int) = ts.foldl b.countStep (scopes.count b) by
    rw [hfold, Bracket.foldl_countStep, ← Bracket.counter_eq]
  induction ts generalizing scopes with
  | nil =>
    obtain rfl : scopes = out := by simpa using h
    rfl
  | cons t ts ih =>
    rw [openScopes_cons, Option.bind_eq_some_iff] at h
    obtain ⟨between, ht, hts⟩ := h
    rw [ih hts, count_of_scopesAfter ht, List.foldl_cons]

/-- Where the brackets are nested, every opener has a partner, and the brackets between the two are
    nested. -/
theorem NestedBrackets.exists_enclosed? (h : NestedBrackets ts) (hdrop : ts.drop o = opener :: rest)
    (hb : b.opens opener = true) :
    ∃ e, b.enclosed? 0 rest = some e ∧ NestedBrackets e.inside := by
  have hts : ts.filter isBracket = (ts.take o).filter isBracket
      ++ opener :: rest.filter isBracket := by
    rw [← List.filter_cons_of_pos (isBracket_of_opens hb), ← hdrop, ← List.filter_append,
      List.take_append_drop]
  rw [NestedBrackets, Nested, hts, openScopes_append, Option.bind_eq_some_iff] at h
  obtain ⟨scopes, -, hrest⟩ := h
  cases he : b.enclosed? 0 rest with
  | some e =>
    exact ⟨e, rfl, (nested_inside hb (enclosed?_filter_isBracket he) hrest).1⟩
  | none =>
    -- The opener would be open at the end of the text.
    have hpos := counter_of_enclosed?_eq_none he rest (List.prefix_refl _)
    have hcount := count_of_openScopes hrest b
    rw [Bracket.counter_of_opens hb, counter_filter_isBracket] at hcount
    rw [List.count_nil] at hcount
    omega

/-! ### What the search finds -/

/-- The ends of the runs from an opener on that hold as many openers of its pair as closers. -/
def evenEnds (b : Bracket) (ts : List Token) (o : Nat) : Set Nat :=
  {c | o < c ∧ c < ts.length ∧
    (stretch ts o c).countP b.opens = (stretch ts o c).countP b.closes}

theorem mem_evenEnds :
    c ∈ evenEnds b ts o ↔ o < c ∧ c < ts.length ∧ b.counter (stretch ts o c) = 0 := by
  rw [Bracket.counter_eq, sub_eq_zero, Nat.cast_inj]
  rfl

theorem IsPartner.isLeast (h : IsPartner b ts o c) : IsLeast (evenEnds b ts o) c := by
  obtain ⟨t, ht, -⟩ := h.closes
  refine ⟨mem_evenEnds.2 ⟨h.lt, (List.getElem?_eq_some_iff.1 ht).1, h.counter_eq⟩, fun j hj => ?_⟩
  obtain ⟨hoj, -, hzero⟩ := mem_evenEnds.1 hj
  by_contra hlt
  have := h.counter_pos j (by omega) (by omega)
  omega

theorem evenEnds_eq_empty (h : ts[o]? = some opener) (hb : b.opens opener = true)
    (hc : matchingClose? ts o = none) : evenEnds b ts o = ∅ := by
  refine Set.eq_empty_of_forall_notMem fun j hj => ?_
  obtain ⟨hoj, -, hzero⟩ := mem_evenEnds.1 hj
  have := counter_stretch_pos h hb hc (Nat.le_of_lt hoj)
  omega

/-- The search starts at openers only. -/
theorem exists_opens_of_matchingClose? (h : matchingClose? ts o = some c) :
    ∃ b opener, ts[o]? = some opener ∧ Bracket.opens b opener = true := by
  obtain ⟨opener, hopener, h⟩ := Option.bind_eq_some_iff.1 h
  obtain ⟨_, hkind, h⟩ := Option.bind_eq_some_iff.1 h
  obtain ⟨b, hb, -⟩ := Option.bind_eq_some_iff.1 h
  exact ⟨b, opener, hopener, Token.is_iff.2
    ⟨by simpa [guard] using hkind, Bracket.ofOpener?_eq_some_iff.1 hb⟩⟩

/-- **The search for a partner finds the true one.**  From an opener of a pair on it finds the first
    index up to which the text holds as many closers of the pair as openers, and nothing if there
    is no such index; on the way, its counter is never below zero.  If the brackets of the text are
    nested, then there always is a partner, what stands between the two is nested, and no other
    opener has the same partner. -/
theorem matchingClose?_isLeast (b : Bracket) (ts : List Token) (o : Nat) {opener : Token}
    (hopener : ts[o]? = some opener) (hb : b.opens opener = true) :
    (∀ c, matchingClose? ts o = some c ↔ IsLeast (evenEnds b ts o) c) ∧
    (matchingClose? ts o = none ↔ evenEnds b ts o = ∅) ∧
    (∀ j, o ≤ j → (∀ c, matchingClose? ts o = some c → j ≤ c) →
      0 ≤ b.counter (stretch ts o j)) ∧
    (NestedBrackets ts → ∃ c, matchingClose? ts o = some c ∧
      NestedBrackets ((ts.take c).drop (o + 1)) ∧
      ∀ o', matchingClose? ts o' = some c → o' = o) := by
  have hfound : ∀ {c}, matchingClose? ts o = some c → IsPartner b ts o c :=
    isPartner_of_matchingClose? hopener hb
  refine ⟨fun c => ⟨fun hc => (hfound hc).isLeast, fun hc => ?_⟩,
    ⟨evenEnds_eq_empty hopener hb, fun hempty => ?_⟩, fun j hoj hj => ?_, fun hnested => ?_⟩
  · cases hm : matchingClose? ts o with
    | none => exact absurd (evenEnds_eq_empty hopener hb hm ▸ hc.1) (Set.notMem_empty c)
    | some c' => rw [(hfound hm).isLeast.unique hc]
  · refine Option.eq_none_iff_forall_ne_some.2 fun c hc => ?_
    exact absurd (hempty ▸ (hfound hc).isLeast.1) (Set.notMem_empty c)
  · cases hm : matchingClose? ts o with
    | none => exact Int.le_of_lt (counter_stretch_pos hopener hb hm hoj)
    | some c =>
      rcases Nat.lt_or_eq_of_le (hj c hm) with hlt | rfl
      · exact Int.le_of_lt ((hfound hm).counter_pos j hoj hlt)
      · rw [(hfound hm).counter_eq]
  · have hdrop := drop_of_getElem? hopener
    obtain ⟨e, he, hinside⟩ := hnested.exists_enclosed? hdrop hb
    have hm : matchingClose? ts o = some (o + 1 + e.inside.length) := by
      rw [matchingClose?_of_drop hdrop hb, he, Option.map_some]
    refine ⟨_, hm, ?_, fun o' ho' => ?_⟩
    · have hbetween : (ts.take (o + 1 + e.inside.length)).drop (o + 1) = e.inside := by
        rw [List.drop_take, Nat.add_sub_cancel_left, ← Bracket.whole_of_enclosed? he,
          Enclosed.whole, List.take_left]
      rwa [hbetween]
    · obtain ⟨b', opener', hopener', hb'⟩ := exists_opens_of_matchingClose? ho'
      exact (isPartner_of_matchingClose? hopener' hb' ho').opener_unique (hfound hm)

/-- A parenthesis around square brackets, in braces and with another pair behind it. -/
theorem matchingClose?_isLeast_mixed :
    ∃ ts, ts.map Token.text = ["\x7b", "(", "[", "]", ")", "(", ")", "\x7d"] ∧
      ts[1]? = some Bracket.round.openToken ∧ NestedBrackets ts ∧
      IsLeast (evenEnds .round ts 1) 4 ∧ 0 ≤ Bracket.round.counter (stretch ts 1 3) ∧
      NestedBrackets ((ts.take 4).drop 2) ∧ ∀ o', matchingClose? ts o' = some 4 → o' = 1 := by
  let ts := [Bracket.curly.openToken, Bracket.round.openToken, Bracket.square.openToken,
    Bracket.square.closeToken, Bracket.round.closeToken, Bracket.round.openToken,
    Bracket.round.closeToken, Bracket.curly.closeToken]
  have hopener : ts[1]? = some Bracket.round.openToken := rfl
  have hnested : NestedBrackets ts := Nested.nestedBrackets (by decide)
  have hfour : matchingClose? ts 1 = some 4 := by decide
  obtain ⟨hleast, -, hcounter, hpartner⟩ :=
    matchingClose?_isLeast .round ts 1 hopener (by decide)
  obtain ⟨c, hc, hinside, hunique⟩ := hpartner hnested
  obtain rfl : 4 = c := Option.some.inj (hfour.symm.trans hc)
  refine ⟨ts, rfl, hopener, hnested, (hleast 4).1 hfour, hcounter 3 (by decide) fun c hc => ?_,
    hinside, hunique⟩
  obtain rfl : 4 = c := Option.some.inj (hfour.symm.trans hc)
  decide

end Kotlinize
