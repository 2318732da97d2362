import Kotlinize.Proofs.Accessor.Opened
import Kotlinize.Proofs.Accessor.Place
import Kotlinize.Proofs.Seam.Declarations

namespace Kotlinize

/-!
# All late-initialised properties at once

The pass takes the mark of a property, writes the modifier and goes on in the text that it has
changed.  This file finds the marks in the untouched text: each is taken, and each of their
keywords gets the modifier, in one substitution.

* `lateInitMark?` — the index of the mark behind the property that a keyword declares.
* `lateInitMark?_eq_some` — what stands between the two.
* `markLateInit_induction` — the pass goes from one property to the text behind its mark.
* `markLateInit_eq_slots` — the pass is the substitution.
-/

variable {ts rest : List Token} {t : Token} {i j k : Nat}

/-! ### Marks by index -/

/-- The index of the mark behind the type of the property that the keyword at an index declares.
    The type has at least one token, and nothing but names and the type marks `<`, `>`, `[`, `]`
    and `.` stands between its start and the mark. -/
def lateInitMark? (ts : List Token) (k : Nat) : Option Nat :=
  (typeStart? ts k).bind fun start =>
    let stop := start + ((ts.drop start).takeWhile (isTypeToken lateInitTypeMarks)).length
    if start < stop && isAt ts stop .symbol "!" then some stop else none

/-- Whether the keyword of a late-initialised property stands at an index. -/
def isLateInitKeyword (ts : List Token) (k : Nat) : Bool := (lateInitMark? ts k).isSome

/-- Whether the mark of a late-initialised property stands at an index. -/
def isLateInitMark (ts : List Token) (i : Nat) : Bool :=
  (List.range ts.length).any fun k => lateInitMark? ts k == some i

/-- What the substitution writes for the token at an index. -/
def lateInitSlot (ts : List Token) (i : Nat) (t : Token) : List Token :=
  if isLateInitMark ts i then []
  else if isLateInitKeyword ts i then lateInitModifier ++ [t]
  else [t]

theorem isVariableKeyword_of_lateInitMark? (h : lateInitMark? ts k = some i) :
    ts[k]?.any isVariableKeyword = true := by
  obtain ⟨start, hstart, -⟩ := Option.bind_eq_some_iff.1 h
  exact isVariableKeyword_of_typeStart? hstart

theorem lt_length_of_lateInitMark? (h : lateInitMark? ts k = some i) : k < ts.length := by
  obtain ⟨t, ht, -⟩ := (Option.any_eq_true _ _).1 (isVariableKeyword_of_lateInitMark? h)
  exact (List.getElem?_eq_some_iff.1 ht).1

theorem isLateInitMark_iff : isLateInitMark ts i = true ↔ ∃ k, lateInitMark? ts k = some i := by
  simp only [isLateInitMark, List.any_eq_true, List.mem_range, beq_iff_eq]
  exact ⟨fun ⟨k, _, h⟩ => ⟨k, h⟩, fun ⟨k, h⟩ => ⟨k, lt_length_of_lateInitMark? h, h⟩⟩

/-- The search by index, in the words of the pass. -/
theorem lateInitMark?_of_drop (h : ts.drop k = t :: rest) (hk : isVariableKeyword t = true) :
    lateInitMark? ts k = (typedName? rest).bind fun n =>
      let type := n.type.takeWhile (isTypeToken lateInitTypeMarks)
      if 0 < type.length
          && (n.type.dropWhile (isTypeToken lateInitTypeMarks)).head?.any (·.is .symbol "!") then
        some (k + 1 + n.lead.length + type.length)
      else none := by
  rw [lateInitMark?, typeStart?_of_drop h hk]
  cases hn : typedName? rest with
  | none => rfl
  | some n =>
    have htype : ts.drop (k + 1 + n.lead.length) = n.type := by
      rw [← List.drop_drop, drop_succ_of_drop h, ← whole_of_typedName? hn, TypedName.whole,
        List.drop_left]
    have hstop : ts[k + 1 + n.lead.length
          + (n.type.takeWhile (isTypeToken lateInitTypeMarks)).length]?
        = (n.type.dropWhile (isTypeToken lateInitTypeMarks)).head? := by
      rw [← List.head?_drop, ← List.drop_drop, htype, drop_length_takeWhile]
    rw [Option.map_some, Option.bind_some, Option.bind_some, htype]
    dsimp only
    rw [isAt, hstop]
    simp

/-- **A mark stands behind a head.**  The mark of the property that a keyword declares is the one
    behind the name, the colon and the type that follow the keyword. -/
theorem lateInitMark?_of_typedHead {head tail : List Token} {mark : Token}
    (h : ts.drop k = t :: (head ++ mark :: tail)) (hk : isVariableKeyword t = true)
    (hh : TypedHead head) (hm : mark.is .symbol "!" = true) :
    lateInitMark? ts k = some (k + 1 + head.length) := by
  obtain ⟨n, first, type, hn, rfl, htake, hdrop⟩ := exists_typedName?_of_typedHead hh hm tail
  rw [lateInitMark?_of_drop h hk, hn, Option.bind_some]
  dsimp only
  rw [htake, hdrop, List.head?_cons, Option.any_some, hm]
  simp [Nat.add_assoc]

/-- A keyword has a mark only if it declares a late-initialised property. -/
theorem marked_of_lateInitMark? (h : ts.drop k = t :: rest) (hk : isVariableKeyword t = true)
    (hi : lateInitMark? ts k = some i) : Marked rest := by
  rw [lateInitMark?_of_drop h hk] at hi
  obtain ⟨n, hn, hi⟩ := Option.bind_eq_some_iff.1 hi
  rw [← isSome_unmarked?_iff, unmarked?, hn]
  dsimp only at hi ⊢
  cases htake : n.type.takeWhile (isTypeToken lateInitTypeMarks) with
  | nil => simp [htake] at hi
  | cons first type =>
    cases hdrop : n.type.dropWhile (isTypeToken lateInitTypeMarks) with
    | nil => simp [hdrop] at hi
    | cons mark tail =>
      have hm : mark.is .symbol "!" = true := by
        rw [hdrop] at hi
        obtain ⟨hc, -⟩ := Option.ite_none_right_eq_some.1 hi
        exact (Bool.and_eq_true_iff.1 hc).2
      dsimp only
      rw [if_pos hm]
      rfl

/-- The keyword of a late-initialised property, what stands up to its mark, the mark, and what
    follows it. -/
theorem exists_typedHead_of_lateInitMark? (h : lateInitMark? ts k = some i) :
    ∃ t head mark tail, ts.drop k = t :: (head ++ mark :: tail) ∧ isVariableKeyword t = true ∧
      TypedHead head ∧ mark.is .symbol "!" = true ∧ k + 1 + head.length = i := by
  obtain ⟨t, ht, hk⟩ := (Option.any_eq_true _ _).1 (isVariableKeyword_of_lateInitMark? h)
  have hdrop := drop_of_getElem? ht
  obtain ⟨head, mark, tail, hh, hm, hrest⟩ := marked_of_lateInitMark? hdrop hk h
  rw [hrest] at hdrop
  rw [lateInitMark?_of_typedHead hdrop hk hh hm] at h
  exact ⟨t, head, mark, tail, hdrop, hk, hh, hm, Option.some.inj h⟩

/-- Between the keyword of a late-initialised property and its mark no variable is declared. -/
theorem lateInitMark?_eq_some (h : lateInitMark? ts k = some i) :
    k < i ∧ i < ts.length ∧ ∀ j, k < j → j ≤ i → lateInitMark? ts j = none := by
  obtain ⟨t, head, mark, tail, hdrop, -, hh, hm, rfl⟩ := exists_typedHead_of_lateInitMark? h
  have hlen := congrArg List.length hdrop
  simp only [List.length_drop, List.length_cons, List.length_append] at hlen
  refine ⟨by omega, by omega, fun j hkj hji => ?_⟩
  rw [Option.eq_none_iff_forall_ne_some]
  intro m hj
  -- The keyword at `j` would be a token of the head, or the mark.
  obtain ⟨u, hu, hv⟩ := (Option.any_eq_true _ _).1 (isVariableKeyword_of_lateInitMark? hj)
  have hmem : u ∈ head ++ [mark] := by
    have hget : ((head ++ [mark]) ++ tail)[j - (k + 1)]? = some u := by
      rw [List.append_assoc, List.singleton_append, ← drop_succ_of_drop hdrop, List.getElem?_drop,
        ← hu]
      congr 1
      omega
    rw [List.getElem?_append_left (by simp; omega)] at hget
    exact List.mem_of_getElem? hget
  rcases List.mem_append.1 hmem with hu | hu
  · rw [hh.isVariableKeyword u hu] at hv
    cases hv
  · rw [List.mem_singleton.1 hu, isVariableKeyword, Token.is_iff] at hv
    rw [Token.is_iff, hv.1] at hm
    cases hm.1

/-- What stands between the keyword of a late-initialised property and its mark is the mark of no
    other, nor is the mark itself. -/
theorem eq_of_lateInitMark?_between {m : Nat} (hi : lateInitMark? ts i = some m)
    (hk : lateInitMark? ts k = some j) (hij : i ≤ j) (hjm : j ≤ m) : k = i := by
  rcases Nat.lt_trichotomy k i with hlt | heq | hlt
  · rw [(lateInitMark?_eq_some hk).2.2 i hlt hij] at hi
    cases hi
  · exact heq
  · have hkj := (lateInitMark?_eq_some hk).1
    rw [(lateInitMark?_eq_some hi).2.2 k hlt (by omega)] at hk
    cases hk

/-- No mark belongs to two keywords. -/
theorem lateInitMark?_inj (hj : lateInitMark? ts j = some i) (hk : lateInitMark? ts k = some i) :
    j = k :=
  (eq_of_lateInitMark?_between hj hk (Nat.le_of_lt (lateInitMark?_eq_some hj).1)
    (Nat.le_refl i)).symm

/-! ### The pass from property to property -/

/-- At a late-initialised property the pass writes the modifier, and goes on behind the mark. -/
theorem markLateInit_of_typedHead {head tail : List Token} {mark : Token}
    (hk : isVariableKeyword t = true) (hh : TypedHead head) (hm : mark.is .symbol "!" = true) :
    markLateInit (t :: (head ++ mark :: tail))
      = ((markLateInit tail).append (lateInitModifier ++ t :: head)).counted 1 := by
  have hfound : (if isVariableKeyword t then unmarked? (head ++ mark :: tail) else none)
      = some (head ++ tail) := by
    rw [if_pos hk, unmarked?_of_typedHead hh hm]
  rw [markLateInit]
  split
  · rename_i us hus
    obtain rfl : head ++ tail = us := Option.some.inj (hfound.symm.trans hus)
    rw [markLateInit_append hh.isVariableKeyword]
    simp [Edited.append]
  · rename_i hnone
    rw [hfound] at hnone
    cases hnone

/-- Any other token stays. -/
theorem markLateInit_of_not_marked (h : isVariableKeyword t = true → ¬ Marked rest) :
    markLateInit (t :: rest) = (markLateInit rest).cons t := by
  rw [markLateInit]
  split
  · rename_i us hus
    obtain ⟨hk, hus⟩ := Option.ite_none_right_eq_some.1 hus
    exact absurd (isSome_unmarked?_iff.1 (by rw [hus]; rfl)) (h hk)
  · rfl

/-- **From property to property.**  What holds of the empty text, and holds in front of a text as
    it does of the text, over a whole property or over a token that declares none, holds of every
    text. -/
theorem markLateInit_induction {motive : List Token → Prop} (nil : motive [])
    (property : ∀ t head mark tail, isVariableKeyword t = true → TypedHead head →
      mark.is .symbol "!" = true → motive tail → motive (t :: (head ++ mark :: tail)))
    (other : ∀ t rest, (isVariableKeyword t = true → ¬ Marked rest) → motive rest →
      motive (t :: rest)) (ts : List Token) : motive ts := by
  induction hn : ts.length using Nat.strong_induction_on generalizing ts with
  | h n ih =>
    cases ts with
    | nil => exact nil
    | cons t rest =>
      by_cases h : isVariableKeyword t = true ∧ Marked rest
      · obtain ⟨hk, head, mark, tail, hh, hm, rfl⟩ := h
        refine property t head mark tail hk hh hm (ih tail.length ?_ tail rfl)
        simp only [List.length_cons, List.length_append] at hn
        omega
      · refine other t rest (fun hk hm => h ⟨hk, hm⟩) (ih rest.length ?_ rest rfl)
        rw [← hn, List.length_cons]
        exact Nat.lt_succ_self _

/-! ### The substitution -/

theorem lateInitSlot_of_mark (h : lateInitMark? ts k = some i) (t : Token) :
    lateInitSlot ts i t = [] :=
  if_pos (isLateInitMark_iff.2 ⟨k, h⟩)

/-- At a place that belongs to no property a token stays. -/
theorem lateInitSlot_of_none (hk : lateInitMark? ts i = none)
    (hi : ∀ k, lateInitMark? ts k ≠ some i) (t : Token) : lateInitSlot ts i t = [t] := by
  have hmark : isLateInitMark ts i = false := by
    rw [Bool.eq_false_iff, Ne, isLateInitMark_iff]
    rintro ⟨k, h⟩
    exact hi k h
  simp [lateInitSlot, hmark, isLateInitKeyword, hk]

theorem lateInitSlot_of_keyword (hk : lateInitMark? ts k = some i) (t : Token) :
    lateInitSlot ts k t = lateInitModifier ++ [t] := by
  have hmark : isLateInitMark ts k = false := by
    rw [Bool.eq_false_iff, Ne, isLateInitMark_iff]
    rintro ⟨j, hj⟩
    -- A keyword in front of this one would have this one for its mark.
    obtain ⟨hjk, -, hnone⟩ := lateInitMark?_eq_some hj
    rw [hnone k hjk (Nat.le_refl k)] at hk
    cases hk
  simp [lateInitSlot, hmark, isLateInitKeyword, hk]

/-- Between a keyword and its mark the tokens stay. -/
theorem slotted_head {m : Nat} {head : List Token} (hi : lateInitMark? ts i = some m)
    (hm : m = i + 1 + head.length) : slotted (lateInitSlot ts) (i + 1) head = head := by
  refine slotted_eq_self fun j hij hj t => ?_
  refine lateInitSlot_of_none ((lateInitMark?_eq_some hi).2.2 j hij (by omega)) (fun k hk => ?_) t
  obtain rfl := eq_of_lateInitMark?_between hi hk (by omega) (by omega)
  rw [hi] at hk
  cases hk
  omega

/-- A token that declares no late-initialised property has no mark of its own. -/
theorem lateInitMark?_of_not_marked (h : ts.drop i = t :: rest)
    (hnot : isVariableKeyword t = true → ¬ Marked rest) : lateInitMark? ts i = none := by
  rw [Option.eq_none_iff_forall_ne_some]
  intro m hm
  have hk : isVariableKeyword t = true := by
    have hany := isVariableKeyword_of_lateInitMark? hm
    rwa [getElem?_of_drop_eq_cons h, Option.any_some] at hany
  exact hnot hk (marked_of_lateInitMark? h hk hm)

/-- From any place on that no property reaches over, the pass is the substitution. -/
theorem markLateInit_of_drop (rest : List Token) (hdrop : ts.drop i = rest)
    (hbefore : ∀ k m, k < i → lateInitMark? ts k = some m → m < i) :
    (markLateInit rest).tokens = slotted (lateInitSlot ts) i rest ∧
      (markLateInit rest).count
        = (List.range' i rest.length).countP (isLateInitKeyword ts) := by
  induction rest using markLateInit_induction generalizing i with
  | nil => simp [markLateInit, slotted]
  | property t head mark tail hk hh hm ih =>
    have hmark := lateInitMark?_of_typedHead hdrop hk hh hm
    obtain ⟨-, -, hnone⟩ := lateInitMark?_eq_some hmark
    -- The text goes on behind the mark, and no property reaches over it.
    have htail : ts.drop (i + 1 + head.length + 1) = tail := by
      rw [Nat.add_assoc (i + 1), ← List.drop_drop, drop_succ_of_drop hdrop]
      simp
    have hends : ∀ k m, k < i + 1 + head.length + 1 → lateInitMark? ts k = some m →
        m < i + 1 + head.length + 1 := by
      intro k m hlt hm
      rcases Nat.lt_trichotomy k i with hki | rfl | hki
      · have := hbefore k m hki hm
        omega
      · rw [hmark] at hm
        cases hm
        omega
      · rw [hnone k hki (by omega)] at hm
        cases hm
    obtain ⟨htokens, hcount⟩ := ih htail hends
    have hothers : (List.range' (i + 1) (head.length + 1)).countP (isLateInitKeyword ts) = 0 := by
      rw [List.countP_eq_zero]
      intro j hj
      rw [List.mem_range'_1] at hj
      rw [isLateInitKeyword, hnone j (by omega) (by omega)]
      exact Bool.false_ne_true
    rw [markLateInit_of_typedHead hk hh hm]
    constructor
    · rw [Edited.tokens_counted, Edited.tokens_append, htokens, slotted_cons, slotted_append,
        slotted_cons, lateInitSlot_of_keyword hmark, slotted_head hmark rfl,
        lateInitSlot_of_mark hmark]
      simp
    · have hlen : (t :: (head ++ mark :: tail)).length = head.length + 1 + tail.length + 1 := by
        simp
        omega
      have hkeyword : isLateInitKeyword ts i = true := by
        rw [isLateInitKeyword, hmark]
        rfl
      rw [Edited.count_counted, Edited.count_append, hcount, hlen, List.range'_succ,
        List.countP_cons_of_pos hkeyword, ← List.range'_append_1, List.countP_append, hothers,
        Nat.zero_add, Nat.add_comm]
      rfl
  | other t rest h ih =>
    have hnone := lateInitMark?_of_not_marked hdrop h
    have hends : ∀ k m, k < i + 1 → lateInitMark? ts k = some m → m < i + 1 := by
      intro k m hlt hm
      rcases Nat.lt_succ_iff_lt_or_eq.1 hlt with hki | rfl
      · exact Nat.lt_succ_of_lt (hbefore k m hki hm)
      · rw [hnone] at hm
        cases hm
    obtain ⟨htokens, hcount⟩ := ih (drop_succ_of_drop hdrop) hends
    have hslot : lateInitSlot ts i t = [t] := by
      refine lateInitSlot_of_none hnone (fun k hk => ?_) t
      have hki := (lateInitMark?_eq_some hk).1
      exact Nat.lt_irrefl i (hbefore k i hki hk)
    rw [markLateInit_of_not_marked h]
    constructor
    · rw [Edited.tokens_cons, htokens, slotted_cons, hslot]
      rfl
    · rw [Edited.count_cons, hcount, List.length_cons, List.range'_succ,
        List.countP_cons_of_neg (by simp [isLateInitKeyword, hnone])]

/-- **The pass is one substitution.**  In the text that it leaves, each token of the untouched text
    stands as it did, except that the mark of each late-initialised property is gone and the
    modifier and a space stand in front of its keyword.  Its count is the number of these keywords,
    and each has a mark of its own. -/
theorem markLateInit_eq_slots (ts : List Token) :
    (markLateInit ts).tokens = slotted (lateInitSlot ts) 0 ts ∧
      (markLateInit ts).count = (List.range ts.length).countP (isLateInitKeyword ts) ∧
      ∀ j k i, lateInitMark? ts j = some i → lateInitMark? ts k = some i → j = k := by
  have hpass := markLateInit_of_drop (i := 0) ts rfl fun k m hk _ => absurd hk (Nat.not_lt_zero k)
  rw [← List.range_eq_range'] at hpass
  exact ⟨hpass.1, hpass.2, fun j k i => lateInitMark?_inj⟩

end Kotlinize
