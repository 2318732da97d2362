import Kotlinize.Proofs.Arrow.Place
import Kotlinize.Token.Edit

namespace Kotlinize

/-!
# Return arrows, all at once

The pass goes on behind each arrow that it replaces.  This file says what it does in terms of the
untouched text alone: of the functions with a return arrow it takes, from the front, each that
starts behind the arrow of the last one taken, and replaces the arrows of all of these at once.

* `spansFrom` — every function keyword that has a return arrow, with that arrow.
* `spansApart`, `takenSpans` — those that the pass comes to.
* `colonSlot` — what stands for a token when some arrows become colons.
* `arrowsToColons_append` — the pass, from any place on, carries on with the replacement.
* `getElem?_unspaced_colonSlots` — what becomes of each token that is no spacing.
* `arrowsToColons_eq_colonSlots` — what the pass does to a whole text.
-/

variable {config : Config} {ts before rest : List Token} {i j k a b : Nat}

/-! ### Functions and their arrows -/

/-- The function keywords of a text that have a return arrow, each with the index of its arrow,
    from an index on. -/
def spansFrom (config : Config) (ts : List Token) (start : Nat) : List (Nat × Nat) :=
  (List.range' start (ts.length - start)).filterMap fun i =>
    (returnArrow? config ts i).map fun a => (i, a)

/-- Those of some spans that start behind the last one taken, and not in front of an index. -/
def spansApart (start : Nat) : List (Nat × Nat) → List (Nat × Nat)
  | [] => []
  | span :: spans =>
    if start ≤ span.1 then span :: spansApart (span.2 + 1) spans else spansApart start spans

/-- The functions whose return arrow is replaced, from an index on. -/
def takenFrom (config : Config) (ts : List Token) (start : Nat) : List (Nat × Nat) :=
  spansApart start (spansFrom config ts start)

/-- The function keywords whose return arrow is replaced, each with its arrow. -/
def takenSpans (config : Config) (ts : List Token) : List (Nat × Nat) := takenFrom config ts 0

/-- An arrow stands behind its function keyword, inside the text. -/
theorem span_bounds (h : returnArrow? config ts i = some a) :
    i < a ∧ a < ts.length ∧ ts[a]?.any isArrow = true := by
  obtain ⟨before, t, rest, s, rfl, rfl, -, hs, rfl⟩ := exists_signature?_of_returnArrow? h
  have harrow : (before ++ t :: rest)[before.length + 1 + s.before.length]? = some s.arrow := by
    rw [← whole_of_signature? hs, Signature.whole, List.getElem?_append_right (by omega),
      show before.length + 1 + s.before.length - before.length = s.before.length + 1 by omega]
    simp
  refine ⟨by omega, (List.getElem?_eq_some_iff.1 harrow).1, ?_⟩
  rw [harrow]
  exact isArrow_of_signature? hs

theorem mem_spansFrom {start : Nat} {span : Nat × Nat} :
    span ∈ spansFrom config ts start
      ↔ start ≤ span.1 ∧ returnArrow? config ts span.1 = some span.2 := by
  simp only [spansFrom, List.mem_filterMap, List.mem_range'_1, Option.map_eq_some_iff]
  constructor
  · rintro ⟨i, hi, a, ha, rfl⟩
    exact ⟨hi.1, ha⟩
  · rintro ⟨hstart, ha⟩
    have hbounds := span_bounds ha
    exact ⟨span.1, ⟨hstart, by omega⟩, span.2, ha, rfl⟩

/-! ### The spans that the pass takes -/

theorem spansFrom_eq_append {start stop : Nat} (h : start ≤ stop) :
    ∃ early, spansFrom config ts start = early ++ spansFrom config ts stop ∧
      ∀ span ∈ early, span.1 < stop := by
  rcases Nat.lt_or_ge stop ts.length with hlt | hge
  · refine ⟨(List.range' start (stop - start)).filterMap fun i =>
      (returnArrow? config ts i).map fun a => (i, a), ?_, ?_⟩
    · rw [spansFrom, spansFrom, ← List.filterMap_append,
        show ts.length - start = stop - start + (ts.length - stop) by omega,
        ← List.range'_append_1, show start + (stop - start) = stop by omega]
    · simp only [List.mem_filterMap, List.mem_range'_1, Option.map_eq_some_iff]
      rintro span ⟨i, hi, a, -, rfl⟩
      dsimp only
      omega
  · refine ⟨spansFrom config ts start, ?_, fun span hspan => ?_⟩
    · rw [spansFrom, spansFrom, show ts.length - stop = 0 by omega]
      simp
    · have hbounds := span_bounds (mem_spansFrom.1 hspan).2
      omega

theorem spansApart_append {start : Nat} {early : List (Nat × Nat)}
    (h : ∀ span ∈ early, span.1 < start) (spans : List (Nat × Nat)) :
    spansApart start (early ++ spans) = spansApart start spans := by
  induction early with
  | nil => rfl
  | cons span early ih =>
    rw [List.forall_mem_cons] at h
    rw [List.cons_append, spansApart, if_neg (by omega), ih h.2]

/-- Which spans start early makes no difference to those that are taken later. -/
theorem spansApart_spansFrom {start stop : Nat} (h : start ≤ stop) :
    spansApart stop (spansFrom config ts start) = takenFrom config ts stop := by
  obtain ⟨early, hsplit, hearly⟩ : ∃ early,
      spansFrom config ts start = early ++ spansFrom config ts stop ∧
        ∀ span ∈ early, span.1 < stop := spansFrom_eq_append h
  rw [hsplit, spansApart_append hearly, takenFrom]

theorem spansApart_congr {start : Nat} {spans : List (Nat × Nat)}
    (h : ∀ span ∈ spans, start < span.1) :
    spansApart start spans = spansApart (start + 1) spans := by
  cases spans with
  | nil => rfl
  | cons span spans =>
    have hspan := h span List.mem_cons_self
    rw [spansApart, spansApart, if_pos (by omega), if_pos (by omega)]

theorem spansFrom_of_lt (h : k < ts.length) :
    spansFrom config ts k
      = ((returnArrow? config ts k).map fun a => (k, a)).toList ++ spansFrom config ts (k + 1) := by
  rw [spansFrom, spansFrom, show ts.length - k = ts.length - (k + 1) + 1 by omega,
    List.range'_succ, List.filterMap_cons]
  cases returnArrow? config ts k <;> rfl

theorem takenFrom_of_none (h : returnArrow? config ts k = none) :
    takenFrom config ts k = takenFrom config ts (k + 1) := by
  rcases Nat.lt_or_ge k ts.length with hlt | hge
  · rw [takenFrom, spansFrom_of_lt hlt, h, Option.map_none, Option.toList_none, List.nil_append,
      spansApart_congr fun span hspan => (mem_spansFrom.1 hspan).1, takenFrom]
  · rw [takenFrom, takenFrom, spansFrom, spansFrom, show ts.length - k = 0 by omega,
      show ts.length - (k + 1) = 0 by omega]
    rfl

theorem takenFrom_of_some (h : returnArrow? config ts k = some a) :
    takenFrom config ts k = (k, a) :: takenFrom config ts (a + 1) := by
  have hbounds := span_bounds h
  rw [takenFrom, spansFrom_of_lt (by omega), h, Option.map_some, Option.toList_some,
    List.singleton_append, spansApart, if_pos (Nat.le_refl k), spansApart_spansFrom (by omega)]

theorem mem_spansApart {start : Nat} {spans : List (Nat × Nat)} {span : Nat × Nat}
    (hspans : ∀ s ∈ spans, s.1 ≤ s.2) (h : span ∈ spansApart start spans) :
    span ∈ spans ∧ start ≤ span.1 := by
  induction spans generalizing start with
  | nil => cases h
  | cons s spans ih =>
    rw [List.forall_mem_cons] at hspans
    rw [spansApart] at h
    split at h
    · rename_i hstart
      rcases List.mem_cons.1 h with rfl | h
      · exact ⟨List.mem_cons_self, hstart⟩
      · obtain ⟨hmem, hle⟩ := ih hspans.2 h
        exact ⟨List.mem_cons_of_mem _ hmem, by omega⟩
    · obtain ⟨hmem, hle⟩ := ih hspans.2 h
      exact ⟨List.mem_cons_of_mem _ hmem, hle⟩

/-- A span that is taken is a function with its return arrow. -/
theorem of_mem_takenFrom {span : Nat × Nat} (h : span ∈ takenFrom config ts k) :
    k ≤ span.1 ∧ returnArrow? config ts span.1 = some span.2 :=
  mem_spansFrom.1 (mem_spansApart
    (fun _ hs => Nat.le_of_lt (span_bounds (mem_spansFrom.1 hs).2).1) h).1

/-- Of two spans that are taken, one ends in front of the other. -/
theorem pairwise_spansApart {start : Nat} {spans : List (Nat × Nat)}
    (hspans : ∀ s ∈ spans, s.1 ≤ s.2) :
    (spansApart start spans).Pairwise fun s s' => s.2 < s'.1 := by
  induction spans generalizing start with
  | nil => exact .nil
  | cons s spans ih =>
    rw [List.forall_mem_cons] at hspans
    rw [spansApart]
    split
    · exact .cons (fun s' hs' => (mem_spansApart hspans.2 hs').2) (ih hspans.2)
    · exact ih hspans.2

/-! ### What stands for a token -/

/-- The index at which the run of spacing from an index on ends. -/
def spacingEnd (ts : List Token) (i : Nat) : Nat := i + (spacingAt ts i).length

/-- What stands for the token at an index when the arrows at some indices become colons: a colon
    for such an arrow, and a space behind it if no whitespace stands there; nothing for spacing
    right in front of one; else the token itself. -/
def colonSlot (ts : List Token) (arrows : List Nat) (i : Nat) : List Token :=
  if i ∈ arrows then .symbol ":" :: if needsSpaceAt ts (i + 1) then [.space] else []
  else if spacingEnd ts i ∈ arrows then []
  else ts[i]?.toList

/-- A run of spacing ends in front of a token that is none. -/
theorem spacingEnd_le {t : Token} (hi : i ≤ j) (ht : ts[j]? = some t)
    (hspacing : t.isSpacing = false) : spacingEnd ts i ≤ j := by
  rw [← Nat.not_lt]
  intro hlt
  have htake : spacingAt ts i = (ts.drop i).take (spacingAt ts i).length :=
    List.prefix_iff_eq_take.1 (List.takeWhile_prefix _)
  have hrun : (spacingAt ts i)[j - i]? = some t := by
    rw [spacingEnd] at hlt
    rw [htake, List.getElem?_take_of_lt (by omega), List.getElem?_drop,
      show i + (j - i) = j by omega, ht]
  have hfalse : t.isSpacing = true := of_mem_takeWhile (List.mem_of_getElem? hrun)
  rw [hspacing] at hfalse
  cases hfalse

theorem isSpacing_of_isArrow {t : Token} (h : isArrow t = true) : t.isSpacing = false :=
  isSpacing_eq_false (isTrivia_of_is h (by decide) (by decide) (by decide))

theorem isSpacing_of_isFunctionKeyword {t : Token} (h : isFunctionKeyword t = true) :
    t.isSpacing = false :=
  isSpacing_eq_false (isTrivia_of_is h (by decide) (by decide) (by decide))

/-- No spacing in front of a function keyword reaches the arrow behind it. -/
theorem spacingEnd_ne (h : returnArrow? config ts j = some a) (hi : i ≤ j) :
    spacingEnd ts i ≠ a := by
  obtain ⟨t, ht, hk⟩ :=
    (Option.any_eq_true _ _).1 (isFunctionKeyword_of_returnArrow? h)
  have hle := spacingEnd_le hi ht (isSpacing_of_isFunctionKeyword hk)
  have hbounds := span_bounds h
  omega

/-- The arrows of some spans. -/
def arrowsOf (spans : List (Nat × Nat)) : List Nat := spans.map Prod.snd

theorem mem_arrowsOf_takenFrom (h : a ∈ arrowsOf (takenFrom config ts k)) :
    ∃ j, k ≤ j ∧ returnArrow? config ts j = some a := by
  obtain ⟨span, hspan, rfl⟩ := List.mem_map.1 h
  exact ⟨span.1, of_mem_takenFrom hspan⟩

/-- A token in front of all functions that are taken stays. -/
theorem colonSlot_of_lt (h : i < k) :
    colonSlot ts (arrowsOf (takenFrom config ts k)) i = ts[i]?.toList := by
  rw [colonSlot, if_neg, if_neg]
  · intro hmem
    obtain ⟨j, hj, hspan⟩ := mem_arrowsOf_takenFrom hmem
    exact spacingEnd_ne hspan (by omega) rfl
  · intro hmem
    obtain ⟨j, hj, hspan⟩ := mem_arrowsOf_takenFrom hmem
    have hbounds := span_bounds hspan
    omega

/-- Behind an arrow, it makes no difference whether that arrow is one of those replaced. -/
theorem colonSlot_cons_of_lt {arrows : List Nat} (h : a < i) :
    colonSlot ts (a :: arrows) i = colonSlot ts arrows i := by
  have hrun : i ≤ spacingEnd ts i := Nat.le_add_right _ _
  simp only [colonSlot, List.mem_cons, show i ≠ a by omega, show spacingEnd ts i ≠ a by omega,
    false_or]

/-- In front of an arrow, later arrows make no difference. -/
theorem colonSlot_cons_of_gt {t : Token} {arrows : List Nat} (h : i < a) (ht : ts[a]? = some t)
    (harrow : isArrow t = true) (hlater : ∀ b ∈ arrows, a < b) :
    colonSlot ts (a :: arrows) i = if spacingEnd ts i = a then [] else ts[i]?.toList := by
  have hrun : spacingEnd ts i ≤ a := spacingEnd_le (Nat.le_of_lt h) ht (isSpacing_of_isArrow harrow)
  have hi : i ∉ a :: arrows := by
    rw [List.mem_cons, not_or]
    refine ⟨by omega, fun hmem => ?_⟩
    have := hlater i hmem
    omega
  have hiff : spacingEnd ts i ∈ a :: arrows ↔ spacingEnd ts i = a := by
    rw [List.mem_cons]
    refine ⟨fun hmem => hmem.elim id fun hmem => ?_, .inl⟩
    have := hlater _ hmem
    omega
  rw [colonSlot, if_neg hi]
  simp only [hiff]

/-- What stands for the arrow itself. -/
theorem colonSlot_cons_self (ts arrows) :
    colonSlot ts (a :: arrows) a = .symbol ":" :: gapBefore (ts.drop (a + 1)) := by
  rw [colonSlot, if_pos List.mem_cons_self, gapBefore, List.head?_drop, needsSpaceAt]
  cases ts[a + 1]?.any Token.isWhitespace <;> rfl

/-! ### Spacing in front of an arrow -/

theorem dropSpacingEnd_eq_nil_iff : dropSpacingEnd ts = [] ↔ ts.all Token.isSpacing = true := by
  rw [List.all_eq_true]
  exact List.rdropWhile_eq_nil_iff

theorem dropSpacingEnd_cons (t : Token) (ts : List Token) :
    dropSpacingEnd (t :: ts)
      = if (t :: ts).all Token.isSpacing then [] else t :: dropSpacingEnd ts := by
  by_cases hall : (t :: ts).all Token.isSpacing = true
  · rw [if_pos hall, dropSpacingEnd_eq_nil_iff.2 hall]
  · rw [if_neg hall, dropSpacingEnd, List.reverse_cons, List.dropWhile_append]
    cases hd : ts.reverse.dropWhile Token.isSpacing with
    | nil =>
      -- Only the first token is no spacing.
      have hnil : dropSpacingEnd ts = [] := by rw [dropSpacingEnd, hd, List.reverse_nil]
      have ht : ¬ t.isSpacing = true := by
        intro ht
        rw [List.all_cons, ht, dropSpacingEnd_eq_nil_iff.1 hnil] at hall
        exact hall rfl
      rw [hnil, List.isEmpty_nil, if_pos rfl, List.dropWhile_cons_of_neg ht]
      rfl
    | cons u us =>
      rw [List.isEmpty_cons, if_neg Bool.false_ne_true, List.reverse_append, dropSpacingEnd, hd]
      rfl

/-- A run of spacing reaches an arrow if there is nothing else in front of it. -/
theorem spacingEnd_eq_iff {t : Token} {post : List Token} (ht : isArrow t = true)
    (before as : List Token) :
    spacingEnd (before ++ (as ++ t :: post)) before.length = before.length + as.length
      ↔ as.all Token.isSpacing = true := by
  rw [List.all_eq_true]
  constructor
  · intro h u hu
    rw [← Bool.not_eq_false]
    intro hspacing
    obtain ⟨m, hm, rfl⟩ := List.getElem_of_mem hu
    have hget : (before ++ (as ++ t :: post))[before.length + m]? = some as[m] := by
      rw [List.getElem?_append_right (Nat.le_add_right _ _), Nat.add_sub_cancel_left,
        List.getElem?_append_left hm, List.getElem?_eq_getElem hm]
    have hle := spacingEnd_le (Nat.le_add_right _ _) hget hspacing
    omega
  · intro hall
    have htail : (t :: post).takeWhile Token.isSpacing = [] := by
      rw [List.takeWhile_cons, isSpacing_of_isArrow ht]
      rfl
    rw [spacingEnd, spacingAt, List.drop_left, List.takeWhile_append_of_pos hall, htail,
      List.append_nil]

/-- In front of an arrow the spacing goes, and the rest stays. -/
theorem flatMap_range'_before {t : Token} (ht : isArrow t = true) (post before as : List Token) :
    ((List.range' before.length as.length).flatMap fun i =>
        if spacingEnd (before ++ (as ++ t :: post)) i = before.length + as.length then []
        else (before ++ (as ++ t :: post))[i]?.toList)
      = dropSpacingEnd as := by
  induction as generalizing before with
  | nil => rfl
  | cons u as ih =>
    have hnext := ih (before ++ [u])
    rw [List.append_assoc, List.singleton_append, List.length_append, List.length_singleton,
      show before.length + 1 + as.length = before.length + (as.length + 1) by omega] at hnext
    have hget : (before ++ (u :: (as ++ t :: post)))[before.length]? = some u := by simp
    have hiff : spacingEnd (before ++ (u :: as ++ t :: post)) before.length
          = before.length + (u :: as).length ↔ (u :: as).all Token.isSpacing = true :=
      spacingEnd_eq_iff ht before (u :: as)
    rw [List.length_cons, List.cons_append] at hiff
    rw [List.length_cons, List.range'_succ, List.flatMap_cons, List.cons_append, hnext,
      dropSpacingEnd_cons]
    simp only [hiff, hget]
    by_cases hall : (u :: as).all Token.isSpacing = true
    · -- Nothing is left of a run of spacing.
      have hnil : as.all Token.isSpacing = true := by
        rw [List.all_cons, Bool.and_eq_true] at hall
        exact hall.2
      rw [if_pos hall, if_pos hall, dropSpacingEnd_eq_nil_iff.2 hnil]
      rfl
    · rw [if_neg hall, if_neg hall]
      rfl

/-- What stands for a text that is cut at the first of the arrows to be replaced. -/
theorem flatMap_colonSlot_cut {arrow : Token} {arrows : List Nat} (harrow : isArrow arrow = true)
    (before as result : List Token) (hlater : ∀ b ∈ arrows, before.length + as.length < b) :
    (List.range' before.length (as.length + (1 + result.length))).flatMap
        (colonSlot (before ++ (as ++ arrow :: result)) ((before.length + as.length) :: arrows))
      = dropSpacingEnd as ++ .symbol ":" :: (gapBefore result
        ++ (List.range' (before.length + as.length + 1) result.length).flatMap
          (colonSlot (before ++ (as ++ arrow :: result)) arrows)) := by
  have hfront := flatMap_range'_before harrow result before as
  have hdrop : (before ++ (as ++ arrow :: result)).drop (before.length + as.length + 1)
      = result := by
    rw [← List.drop_drop, ← List.append_assoc, ← List.length_append, List.drop_left]
    rfl
  have hget : (before ++ (as ++ arrow :: result))[before.length + as.length]? = some arrow := by
    simp
  generalize before ++ (as ++ arrow :: result) = whole at *
  generalize ha : before.length + as.length = a at *
  have hslots : (List.range' before.length as.length).flatMap (colonSlot whole (a :: arrows))
      = dropSpacingEnd as := by
    rw [← hfront]
    refine List.flatMap_congr fun i hi => ?_
    rw [List.mem_range'_1] at hi
    exact colonSlot_cons_of_gt (by omega) hget harrow hlater
  have hbehind : (List.range' (a + 1) result.length).flatMap (colonSlot whole (a :: arrows))
      = (List.range' (a + 1) result.length).flatMap (colonSlot whole arrows) := by
    refine List.flatMap_congr fun i hi => ?_
    rw [List.mem_range'_1] at hi
    exact colonSlot_cons_of_lt (by omega)
  rw [← List.range'_append_1, List.flatMap_append, hslots, ha, Nat.add_comm 1, List.range'_succ,
    List.flatMap_cons, colonSlot_cons_self, hdrop, hbehind]
  simp

/-! ### From any place on -/

/-- Without an arrow to replace, the pass goes on behind the next token. -/
theorem arrowsToColons_cons {t : Token} {e : Edited} (before rest : List Token)
    (hnone : returnArrow? config (before ++ t :: rest) before.length = none)
    (hrest : e.tokens = (List.range' (before ++ [t]).length rest.length).flatMap
        (colonSlot (before ++ [t] ++ rest)
          (arrowsOf (takenFrom config (before ++ [t] ++ rest) (before ++ [t]).length))) ∧
      e.count = (takenFrom config (before ++ [t] ++ rest) (before ++ [t]).length).length) :
    (e.cons t).tokens
        = (List.range' before.length (t :: rest).length).flatMap
          (colonSlot (before ++ t :: rest)
            (arrowsOf (takenFrom config (before ++ t :: rest) before.length))) ∧
      (e.cons t).count
        = (takenFrom config (before ++ t :: rest) before.length).length := by
  rw [List.append_assoc, List.singleton_append, List.length_append, List.length_singleton] at hrest
  have hslot : colonSlot (before ++ t :: rest)
        (arrowsOf (takenFrom config (before ++ t :: rest) (before.length + 1))) before.length
      = (before ++ t :: rest)[before.length]?.toList :=
    colonSlot_of_lt (Nat.lt_succ_self before.length)
  have hget : (before ++ t :: rest)[before.length]? = some t := by simp
  rw [hget] at hslot
  rw [takenFrom_of_none hnone, Edited.tokens_cons, Edited.count_cons, List.length_cons,
    List.range'_succ, List.flatMap_cons, hslot]
  exact ⟨congrArg (t :: ·) hrest.1, hrest.2⟩

/-- **From any place on, the pass carries on with the replacement.**  Behind any part of a text
    it leaves what stands for the rest when the arrows of the functions that are taken from there
    on become colons, and counts these functions. -/
theorem arrowsToColons_append (before rest : List Token) :
    (arrowsToColons config rest).tokens
        = (List.range' before.length rest.length).flatMap
          (colonSlot (before ++ rest)
            (arrowsOf (takenFrom config (before ++ rest) before.length))) ∧
      (arrowsToColons config rest).count
        = (takenFrom config (before ++ rest) before.length).length := by
  fun_induction arrowsToColons config rest generalizing before with
  | case1 =>
    have hnil : takenFrom config (before ++ []) before.length = [] := by
      simp [takenFrom, spansFrom, spansApart]
    exact ⟨rfl, by rw [hnil]; rfl⟩
  | case2 t ts hk s hs ih =>
    have hts : (t :: s.before) ++ s.arrow :: s.result = t :: ts := by
      rw [← whole_of_signature? hs]
      rfl
    have harrow := isArrow_of_signature? hs
    -- The function is taken, and the pass goes on behind its arrow.
    have hspan : returnArrow? config (before ++ t :: ts) before.length
        = some (before.length + (t :: s.before).length) := by
      rw [returnArrow?_append before ts hk, hs, Option.map_some, List.length_cons]
      exact congrArg some (by omega)
    have hrest := ih (before ++ (t :: s.before ++ [s.arrow]))
    rw [List.append_assoc, List.append_assoc, List.singleton_append, hts,
      show (before ++ (t :: s.before ++ [s.arrow])).length
        = before.length + (t :: s.before).length + 1 by simp; omega] at hrest
    have hlater : ∀ b ∈ arrowsOf (takenFrom config (before ++ t :: ts)
          (before.length + (t :: s.before).length + 1)),
        before.length + (t :: s.before).length < b := by
      intro b hb
      obtain ⟨j, hj, hspan'⟩ := mem_arrowsOf_takenFrom hb
      have hbounds := span_bounds hspan'
      omega
    have hcut := flatMap_colonSlot_cut harrow before (t :: s.before) s.result hlater
    have hlen : (t :: s.before).length + (1 + s.result.length) = (t :: ts).length := by
      have hwhole := congrArg List.length hts
      simp only [List.length_append, List.length_cons] at hwhole ⊢
      omega
    have hkept : dropSpacingEnd (t :: s.before) = t :: dropSpacingEnd s.before := by
      rw [dropSpacingEnd_cons, List.all_cons, isSpacing_of_isFunctionKeyword hk, Bool.false_and,
        if_neg Bool.false_ne_true]
    rw [hts, hlen, hkept] at hcut
    rw [takenFrom_of_some hspan, arrowsOf, List.map_cons, ← arrowsOf, hcut, ← hrest.1,
      Edited.tokens_counted, Edited.tokens_append, Edited.count_counted, Edited.count_append,
      hrest.2, List.length_cons]
    exact ⟨by simp, Nat.add_comm _ _⟩
  | case3 t ts hk hs ih =>
    refine arrowsToColons_cons before ts ?_ (ih (before ++ [t]))
    rw [returnArrow?_append before ts hk, hs]
    rfl
  | case4 t ts hk ih =>
    refine arrowsToColons_cons before ts ?_ (ih (before ++ [t]))
    rw [Option.eq_none_iff_forall_ne_some]
    intro a ha
    have hfalse := isFunctionKeyword_of_returnArrow? ha
    simp [hk] at hfalse

/-! ### Token by token -/

/-- Apart from spacing, one token stands for each. -/
theorem unspaced_colonSlot {arrows : List Nat} (harrows : ∀ a ∈ arrows, ts[a]?.any isArrow = true)
    (i : Nat) :
    unspaced (colonSlot ts arrows i)
      = (unspaced ts[i]?.toList).map fun t => if i ∈ arrows then .symbol ":" else t := by
  rw [colonSlot]
  by_cases hi : i ∈ arrows
  · obtain ⟨t, ht, harrow⟩ := (Option.any_eq_true _ _).1 (harrows i hi)
    have hcolon : unspaced (.symbol ":" :: if needsSpaceAt ts (i + 1) then [.space] else [])
        = [.symbol ":"] := by
      cases needsSpaceAt ts (i + 1) <;> rfl
    rw [if_pos hi, hcolon, ht]
    simp [unspaced, isSpacing_of_isArrow harrow, hi]
  · rw [if_neg hi]
    simp only [hi, if_false, List.map_id']
    split
    · rename_i hrun
      -- A run of spacing that reaches an arrow further on starts with spacing.
      have hspacing : unspaced ts[i]?.toList = [] := by
        cases ht : ts[i]? with
        | none => rfl
        | some t =>
          have hne : t.isSpacing = true := by
            rw [← Bool.not_eq_false]
            intro hspacing
            have hle := spacingEnd_le (Nat.le_refl i) ht hspacing
            have hend : spacingEnd ts i = i := Nat.le_antisymm hle (Nat.le_add_right _ _)
            exact hi (hend ▸ hrun)
          simp [unspaced, hne]
      rw [hspacing]
      rfl
    · rfl

/-- **What becomes of a token**: an arrow that is replaced becomes a colon, and every other token
    that is no spacing stays in its place among those. -/
theorem getElem?_unspaced_colonSlots {arrows : List Nat} {t : Token}
    (harrows : ∀ a ∈ arrows, ts[a]?.any isArrow = true) (ht : ts[i]? = some t)
    (hspacing : t.isSpacing = false) :
    (unspaced ((List.range ts.length).flatMap (colonSlot ts arrows)))[(unspaced
        (ts.take i)).length]?
      = some (if i ∈ arrows then .symbol ":" else t) :=
  getElem?_unspaced_slots (f := fun i t => if i ∈ arrows then .symbol ":" else t)
    (unspaced_colonSlot harrows) ht hspacing (List.getElem?_eq_some_iff.1 ht).1

/-! ### The pass -/

/-- A function that is taken has the arrow that is replaced for it as its return arrow. -/
theorem of_mem_takenSpans {span : Nat × Nat} (h : span ∈ takenSpans config ts) :
    returnArrow? config ts span.1 = some span.2 :=
  (of_mem_takenFrom h).2

theorem isArrow_of_mem_arrowsOf (h : a ∈ arrowsOf (takenSpans config ts)) :
    ts[a]?.any isArrow = true := by
  obtain ⟨span, hspan, rfl⟩ := List.mem_map.1 h
  exact (span_bounds (of_mem_takenSpans hspan)).2.2

/-- The pass replaces the arrows of the functions that are taken. -/
theorem arrowsToColons_eq (config : Config) (ts : List Token) :
    (arrowsToColons config ts).tokens
        = (List.range ts.length).flatMap (colonSlot ts (arrowsOf (takenSpans config ts))) ∧
      (arrowsToColons config ts).count = (takenSpans config ts).length := by
  rw [List.range_eq_range']
  exact arrowsToColons_append [] ts

/-- The functions that are taken stand in the order of the text, and so do their arrows. -/
theorem pairwise_takenSpans (config : Config) (ts : List Token) :
    (takenSpans config ts).Pairwise fun s s' => s.1 < s'.1 ∧ s.2 < s'.2 := by
  have horder : (takenSpans config ts).Pairwise fun s s' => s.2 < s'.1 :=
    pairwise_spansApart fun span hspan =>
      Nat.le_of_lt (span_bounds (mem_spansFrom.1 hspan).2).1
  refine horder.imp_of_mem fun {s s'} hs hs' hlt => ?_
  have hbounds := span_bounds (of_mem_takenSpans hs)
  have hbounds' := span_bounds (of_mem_takenSpans hs')
  omega

/-- **The pass replaces return arrows and nothing else.**  There is a set of functions, each with
    its return arrow in the untouched text, no two of them with the same one, and the pass writes
    a colon for each of these arrows, no spacing in front of it, and a space behind it if no
    whitespace stands there; every other token stays in its place.  It counts the arrows.  So a
    token that is no function's return arrow is still there. -/
theorem arrowsToColons_eq_colonSlots (config : Config) (ts : List Token) :
    (arrowsToColons config ts).tokens
        = (List.range ts.length).flatMap (colonSlot ts (arrowsOf (takenSpans config ts))) ∧
      (arrowsToColons config ts).count = (arrowsOf (takenSpans config ts)).length ∧
      (∀ span ∈ takenSpans config ts, ts[span.1]?.any isFunctionKeyword = true ∧
        returnArrow? config ts span.1 = some span.2 ∧ ts[span.2]?.any isArrow = true) ∧
      ((takenSpans config ts).Pairwise fun s s' => s.1 < s'.1 ∧ s.2 < s'.2) ∧
      (∀ i t, ts[i]? = some t → t.isSpacing = false →
        (∀ j, returnArrow? config ts j ≠ some i) →
        (unspaced (arrowsToColons config ts).tokens)[(unspaced (ts.take i)).length]? = some t) := by
  have hpass := arrowsToColons_eq config ts
  refine ⟨hpass.1, ?_, fun span hspan => ?_, pairwise_takenSpans config ts,
    fun i t ht hspacing hnone => ?_⟩
  · rw [hpass.2, arrowsOf, List.length_map]
  · have hspan' := of_mem_takenSpans hspan
    exact ⟨isFunctionKeyword_of_returnArrow? hspan', hspan', (span_bounds hspan').2.2⟩
  · have hstays : i ∉ arrowsOf (takenSpans config ts) := by
      intro hmem
      obtain ⟨span, hspan, rfl⟩ := List.mem_map.1 hmem
      exact hnone span.1 (of_mem_takenSpans hspan)
    rw [hpass.1, getElem?_unspaced_colonSlots (fun _ => isArrow_of_mem_arrowsOf) ht hspacing,
      if_neg hstays]

end Kotlinize
