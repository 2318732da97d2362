import Kotlinize.Token.Basic

namespace Kotlinize

/-!
# Spacing between tokens

* `gapBefore`, `gapAfter` — the single space that an edit owes between two tokens, unless
  whitespace stands there already.
* `dropEndIf`, `dropSpacingEnd` — a list without its last token of a class, or without all the
  spacing at its end.
-/

/-- The space owed in front of `ts`: none if `ts` starts with whitespace. -/
def gapBefore (ts : List Token) : List Token :=
  if ts.head?.any Token.isWhitespace then [] else [.space]

/-- The space owed behind `ts`: none if `ts` ends in whitespace. -/
def gapAfter (ts : List Token) : List Token :=
  if ts.getLast?.any Token.isWhitespace then [] else [.space]

/-- The list without its last token, if that token satisfies `p`. -/
def dropEndIf (p : Token → Bool) (ts : List Token) : List Token :=
  if ts.getLast?.any p then ts.dropLast else ts

/-- The list without the run of whitespace and line ends at its end. -/
def dropSpacingEnd (ts : List Token) : List Token :=
  (ts.reverse.dropWhile Token.isSpacing).reverse

theorem gapBefore_eq (ts : List Token) : gapBefore ts = [] ∨ gapBefore ts = [.space] := by
  unfold gapBefore
  split <;> simp

theorem gapAfter_eq (ts : List Token) : gapAfter ts = [] ∨ gapAfter ts = [.space] := by
  unfold gapAfter
  split <;> simp

theorem length_gapAfter_le (ts : List Token) : (gapAfter ts).length ≤ 1 := by
  rcases gapAfter_eq ts with h | h <;> simp [h]

/-- What `dropEndIf` takes away is at most one token, and it satisfies `p`. -/
theorem dropEndIf_eq (p : Token → Bool) (ts : List Token) :
    dropEndIf p ts = ts ∨ ∃ t, p t = true ∧ ts = dropEndIf p ts ++ [t] := by
  unfold dropEndIf
  split
  · rename_i h
    obtain ⟨t, ht, hp⟩ := (Option.any_eq_true _ _).1 h
    obtain ⟨us, rfl⟩ := List.getLast?_eq_some_iff.1 ht
    exact Or.inr ⟨t, hp, by simp⟩
  · exact Or.inl rfl

theorem length_dropEndIf_le (p : Token → Bool) (ts : List Token) :
    (dropEndIf p ts).length ≤ ts.length := by
  unfold dropEndIf
  split
  · rw [List.length_dropLast]
    exact Nat.sub_le _ _
  · exact Nat.le_refl _

/-- What `dropSpacingEnd` takes away is spacing. -/
theorem exists_eq_dropSpacingEnd_append (ts : List Token) :
    ∃ spacing, (∀ t ∈ spacing, t.isSpacing = true) ∧ ts = dropSpacingEnd ts ++ spacing := by
  refine ⟨(ts.reverse.takeWhile Token.isSpacing).reverse, fun t ht => ?_, ?_⟩
  · exact List.all_eq_true.1 List.all_takeWhile t (List.mem_reverse.1 ht)
  · rw [dropSpacingEnd, ← List.reverse_append, List.takeWhile_append_dropWhile,
      List.reverse_reverse]

end Kotlinize
