import Kotlinize.Edited
import Mathlib

namespace Kotlinize

/-!
# Loops over a text that they change

A loop goes over a text by an index and edits the text in front of it, behind it and at it.  So
neither the length of the text nor the index says that the loop ends; each loop has a measure of
its own, which every iteration makes smaller.

* `Cursor` — where a loop stands: the text as it is by then, an index and the edits so far.
* `Ends` — a loop ends, with an outcome.
* `Ends.count_le` — what each iteration pays for its edit bounds the edits of the whole loop.
* `Skips`, `Ends.skip` — a loop goes over the places where it has nothing to do.
* `scan` — a loop that comes to every index, but for those that an edit skips.
* `firstFrom?`, `search` — a loop that goes from one place of a kind to the next.
-/

/-- Where a loop stands. -/
structure Cursor where
  tokens : List Token
  index : Nat
  count : Nat
deriving DecidableEq, Repr

namespace Cursor

/-- In front of a text. -/
def start (ts : List Token) : Cursor := ⟨ts, 0, 0⟩

/-- The outcome of a loop that ends here. -/
def edited (s : Cursor) : Edited := ⟨s.tokens, s.count⟩

/-- The tokens at the index and behind it. -/
def ahead (s : Cursor) : List Token := s.tokens.drop s.index

theorem ahead_append (before rest : List Token) (n : Nat) :
    ahead ⟨before ++ rest, before.length, n⟩ = rest :=
  List.drop_left

end Cursor

variable {step : Cursor → Option Cursor} {s s' : Cursor} {e : Edited} {ts : List Token}
  {i j n : Nat}

/-- A loop ends with an outcome: there is no further iteration, or it ends so behind one. -/
inductive Ends (step : Cursor → Option Cursor) : Cursor → Edited → Prop where
  | done {s : Cursor} (h : step s = none) : Ends step s s.edited
  | next {s s' : Cursor} {e : Edited} (h : step s = some s') (hrest : Ends step s' e) :
      Ends step s e

namespace Ends

/-- Two places from which a loop goes on in the same way. -/
theorem of_step_eq (hstep : step s = step s') (hs : s.edited = s'.edited) (h : Ends step s' e) :
    Ends step s e := by
  cases h with
  | done h => exact hs ▸ .done (hstep.trans h)
  | next h hrest => exact .next (hstep.trans h) hrest

/-- **Steps and runs.**  If no iteration makes more edits than it takes off a measure, then the
    loop makes no more edits than the measure was. -/
theorem count_le {measure : Cursor → Nat}
    (hstep : ∀ s s', step s = some s' → s'.count + measure s' ≤ s.count + measure s)
    (h : Ends step s e) : e.count ≤ s.count + measure s := by
  induction h with
  | done => exact Nat.le_add_right _ _
  | next h _ ih => exact ih.trans (hstep _ _ h)

end Ends

/-- From an index of a text a loop ends as it does from the next one. -/
def Skips (step : Cursor → Option Cursor) (ts : List Token) (i : Nat) : Prop :=
  ∀ n e, Ends step ⟨ts, i + 1, n⟩ e → Ends step ⟨ts, i, n⟩ e

namespace Ends

theorem skip (hij : i ≤ j) (hskips : ∀ k, i ≤ k → k < j → Skips step ts k)
    (h : Ends step ⟨ts, j, n⟩ e) : Ends step ⟨ts, i, n⟩ e := by
  induction j, hij using Nat.le_induction with
  | base => exact h
  | succ j hij ih =>
    exact ih (fun k hik hkj => hskips k hik (by omega)) (hskips j hij (Nat.lt_succ_self j) n e h)

theorem skip_append {before passed rest : List Token}
    (hskips : ∀ k, before.length ≤ k → k < before.length + passed.length →
      Skips step (before ++ (passed ++ rest)) k)
    (h : Ends step ⟨before ++ passed ++ rest, (before ++ passed).length, n⟩ e) :
    Ends step ⟨before ++ (passed ++ rest), before.length, n⟩ e := by
  rw [List.append_assoc, List.length_append] at h
  exact h.skip (Nat.le_add_right _ _) hskips

theorem skip_cons {before rest : List Token} {t : Token}
    (hskips : Skips step (before ++ t :: rest) before.length)
    (h : Ends step ⟨before ++ [t] ++ rest, (before ++ [t]).length, n⟩ e) :
    Ends step ⟨before ++ t :: rest, before.length, n⟩ e := by
  refine h.skip_append fun k hk hlt => ?_
  obtain rfl : before.length = k := by
    rw [List.length_singleton] at hlt
    omega
  exact hskips

end Ends

/-! ### Loops over every index -/

section

variable {rewrite? : List Token → Nat → Option (List Token × Nat)}

/-- An iteration of a loop that edits the text at its index, and goes on where the edit says, or
    goes on behind the index. -/
def scan (rewrite? : List Token → Nat → Option (List Token × Nat)) (s : Cursor) : Option Cursor :=
  if s.index < s.tokens.length then
    match rewrite? s.tokens s.index with
    | some (ts, i) => some ⟨ts, i, s.count + 1⟩
    | none => some { s with index := s.index + 1 }
  else none

theorem scan_of_some {us : List Token} (hi : i < ts.length) (h : rewrite? ts i = some (us, j)) :
    scan rewrite? ⟨ts, i, n⟩ = some ⟨us, j, n + 1⟩ := by
  rw [scan, if_pos hi, h]

theorem scan_of_none (hi : i < ts.length) (h : rewrite? ts i = none) :
    scan rewrite? ⟨ts, i, n⟩ = some ⟨ts, i + 1, n⟩ := by
  rw [scan, if_pos hi, h]

theorem scan_of_length_le (hi : ts.length ≤ i) : scan rewrite? ⟨ts, i, n⟩ = none :=
  if_neg (Nat.not_lt.2 hi)

/-- An iteration edits the text or goes one index on. -/
theorem scan_eq_some (h : scan rewrite? s = some s') :
    s.index < s.tokens.length ∧
      ((∃ us j, rewrite? s.tokens s.index = some (us, j) ∧ s' = ⟨us, j, s.count + 1⟩) ∨
        rewrite? s.tokens s.index = none ∧ s' = { s with index := s.index + 1 }) := by
  obtain ⟨hi, h⟩ := Option.ite_none_right_eq_some.1 h
  refine ⟨hi, ?_⟩
  cases hr : rewrite? s.tokens s.index with
  | none => exact .inr ⟨rfl, by simpa [hr] using h.symm⟩
  | some r => exact .inl ⟨r.1, r.2, rfl, by simpa [hr] using h.symm⟩

/-- Where there is nothing to edit, the loop goes on. -/
theorem skips_scan (h : rewrite? ts i = none) : Skips (scan rewrite?) ts i := by
  intro n e hrest
  rcases Nat.lt_or_ge i ts.length with hi | hi
  · exact .next (scan_of_none hi h) hrest
  · have hstep : scan rewrite? ⟨ts, i, n⟩ = scan rewrite? ⟨ts, i + 1, n⟩ := by
      rw [scan_of_length_le hi, scan_of_length_le (Nat.le_succ_of_le hi)]
    exact hrest.of_step_eq hstep rfl

end

/-! ### Loops from place to place -/

section

variable {place? : List Token → Nat → Option Nat} {visit : Edited → Nat → Nat → Cursor} {k o : Nat}

/-- The first place of a kind at an index or behind it, with what is found there. -/
def firstFrom? (place? : List Token → Nat → Option Nat) (ts : List Token) (i : Nat) :
    Option (Nat × Nat) :=
  (List.range' i (ts.length - i)).findSome? fun k => (place? ts k).map (k, ·)

/-- An iteration of a loop that searches for the next place of a kind and visits it. -/
def search (place? : List Token → Nat → Option Nat) (visit : Edited → Nat → Nat → Cursor)
    (s : Cursor) : Option Cursor :=
  (firstFrom? place? s.tokens s.index).map fun found => visit s.edited found.1 found.2

theorem firstFrom?_of_length_le (hi : ts.length ≤ i) : firstFrom? place? ts i = none := by
  rw [firstFrom?, Nat.sub_eq_zero_of_le hi, List.range'_zero, List.findSome?_nil]

theorem firstFrom?_of_lt (hi : i < ts.length) :
    firstFrom? place? ts i = ((place? ts i).map (i, ·)).or (firstFrom? place? ts (i + 1)) := by
  rw [firstFrom?, show ts.length - i = ts.length - (i + 1) + 1 by omega, List.range'_succ,
    List.findSome?_cons, ← firstFrom?]
  cases place? ts i <;> rfl

theorem firstFrom?_succ (h : place? ts i = none) :
    firstFrom? place? ts i = firstFrom? place? ts (i + 1) := by
  rcases Nat.lt_or_ge i ts.length with hi | hi
  · rw [firstFrom?_of_lt hi, h]
    rfl
  · rw [firstFrom?_of_length_le hi, firstFrom?_of_length_le (by omega)]

theorem search_of_length_le (hi : ts.length ≤ i) : search place? visit ⟨ts, i, n⟩ = none := by
  rw [search, firstFrom?_of_length_le hi]
  rfl

theorem search_of_some (hi : i < ts.length) (h : place? ts i = some o) :
    search place? visit ⟨ts, i, n⟩ = some (visit ⟨ts, n⟩ i o) := by
  rw [search, firstFrom?_of_lt hi, h]
  rfl

/-- An iteration visits a place at its index or behind it. -/
theorem search_eq_some (h : search place? visit s = some s') :
    ∃ k o, s.index ≤ k ∧ place? s.tokens k = some o ∧ s' = visit s.edited k o := by
  obtain ⟨⟨k, o⟩, hfound, rfl⟩ := Option.map_eq_some_iff.1 h
  obtain ⟨j, hj, hplace⟩ := List.exists_of_findSome?_eq_some hfound
  obtain ⟨o', ho, heq⟩ := Option.map_eq_some_iff.1 hplace
  obtain ⟨rfl, rfl⟩ := Prod.mk.inj heq
  exact ⟨j, o', (List.mem_range'_1.1 hj).1, ho, rfl⟩

/-- Where there is nothing to visit, the loop goes on. -/
theorem skips_search (h : place? ts i = none) : Skips (search place? visit) ts i := by
  intro n e hrest
  have hstep : search place? visit ⟨ts, i, n⟩ = search place? visit ⟨ts, i + 1, n⟩ := by
    rw [search, search, firstFrom?_succ h]
    rfl
  exact hrest.of_step_eq hstep rfl

end

end Kotlinize
