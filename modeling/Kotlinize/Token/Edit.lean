import Kotlinize.Token.Spacing

namespace Kotlinize

/-!
# Edits by index

Every edit takes any index: what lies past the end is not removed or replaced, and what is
inserted there is appended.

* `insertAt`, `removeAt`, `removeRange`, `replaceAt` — single edits.
* `needsSpaceAt`, `spaceAt`, `needsSpaceBefore`, `spaceBefore` — one space, where none is.
* `spacingAt`, `removeSpacingAt` — the run of whitespace and line ends at an index.
-/

/-- Inserts a run of tokens in front of index `i`. -/
def insertAt (ts : List Token) (i : Nat) (added : List Token) : List Token :=
  ts.take i ++ added ++ ts.drop i

/-- Removes the token at index `i`. -/
def removeAt (ts : List Token) (i : Nat) : List Token := ts.eraseIdx i

/-- Removes the tokens from index `first` up to, but not at, index `last`; none if `last` does
not lie behind `first`. -/
def removeRange (ts : List Token) (first last : Nat) : List Token :=
  ts.take first ++ ts.drop (max first last)

/-- Puts a token in the place of the one at index `i`. -/
def replaceAt (ts : List Token) (i : Nat) (t : Token) : List Token := ts.set i t

/-- Whether no whitespace stands at index `i`. -/
def needsSpaceAt (ts : List Token) (i : Nat) : Bool := !ts[i]?.any Token.isWhitespace

/-- Inserts a space at index `i` unless whitespace stands there. -/
def spaceAt (ts : List Token) (i : Nat) : List Token :=
  if needsSpaceAt ts i then insertAt ts i [.space] else ts

/-- Whether a token other than whitespace stands right before index `i`. -/
def needsSpaceBefore (ts : List Token) (i : Nat) : Bool :=
  i != 0 && ts[i - 1]?.any fun t => !t.isWhitespace

/-- Inserts a space at index `i` if a token other than whitespace stands right before it. -/
def spaceBefore (ts : List Token) (i : Nat) : List Token :=
  if needsSpaceBefore ts i then insertAt ts i [.space] else ts

/-- The run of whitespace and line ends that starts at index `i`. -/
def spacingAt (ts : List Token) (i : Nat) : List Token := (ts.drop i).takeWhile Token.isSpacing

/-- Removes the run of whitespace and line ends that starts at index `i`. -/
def removeSpacingAt (ts : List Token) (i : Nat) : List Token :=
  ts.take i ++ (ts.drop i).dropWhile Token.isSpacing

theorem length_insertAt (ts : List Token) (i : Nat) (added : List Token) :
    (insertAt ts i added).length = ts.length + added.length := by
  simp only [insertAt, List.length_append, List.length_take, List.length_drop]
  omega

theorem insertAt_of_length_le {ts : List Token} {i : Nat} (added : List Token)
    (h : ts.length ≤ i) : insertAt ts i added = ts ++ added := by
  simp [insertAt, List.take_of_length_le h, List.drop_of_length_le h]

theorem removeRange_of_le {ts : List Token} {first last : Nat} (h : last ≤ first) :
    removeRange ts first last = ts := by
  rw [removeRange, Nat.max_eq_left h, List.take_append_drop]

theorem needsSpaceAt_spaceAt (ts : List Token) {i : Nat} (h : i ≤ ts.length) :
    needsSpaceAt (spaceAt ts i) i = false := by
  unfold spaceAt
  split
  · simp [needsSpaceAt, insertAt, h]
  · rename_i h'
    exact Bool.eq_false_iff.2 h'

end Kotlinize
