namespace Kotlinize

/-!
# Cutting a text

* `Cut` — a text cut in two: what was taken and what is left.
* `Cut.takeWhile`, `Cut.take` — the cuts by class and by length.
* `Cut.whole` — the text before the cut; every scanner of this library has a lemma that says
  that the whole of its cut is the text it was given.
-/

/-- A text cut in two: the characters taken and those left. -/
structure Cut where
  text : List Char
  rest : List Char
deriving DecidableEq, Repr

namespace Cut

/-- The text before the cut. -/
def whole (k : Cut) : List Char := k.text ++ k.rest

/-- The cut with one more character taken at the front. -/
def cons (c : Char) (k : Cut) : Cut := { k with text := c :: k.text }

/-- Takes the longest run of characters of a class. -/
def takeWhile (p : Char → Bool) (cs : List Char) : Cut := ⟨cs.takeWhile p, cs.dropWhile p⟩

/-- Takes a number of characters. -/
def take (n : Nat) (cs : List Char) : Cut := ⟨cs.take n, cs.drop n⟩

@[simp] theorem whole_cons (c : Char) (k : Cut) : (k.cons c).whole = c :: k.whole := rfl

@[simp] theorem whole_takeWhile (p : Char → Bool) (cs : List Char) :
    (takeWhile p cs).whole = cs :=
  List.takeWhile_append_dropWhile

@[simp] theorem whole_take (n : Nat) (cs : List Char) : (take n cs).whole = cs :=
  List.take_append_drop n cs

theorem length_rest_le (k : Cut) : k.rest.length ≤ k.whole.length := by
  simp [whole]

end Cut

end Kotlinize
