import Kotlinize.Token.Basic

namespace Kotlinize

/-!
# Searches by index

Every search takes any index: past either end it finds nothing, and it never fails.

* `indexOfNext?`, `indexOfPrevious?` — the nearest token of a class, strictly after or before.
* `nextSignificant?`, `previousSignificant?`, `skipTrivia` — past what carries no syntax.
* `lineStart`, `lineEnd?`, `indentation?` — the line around an index.
-/

/-- Whether the token at an index has this kind and this text. -/
def isAt (ts : List Token) (i : Nat) (kind : TokenKind) (text : String) : Bool :=
  ts[i]?.any fun t => t.is kind text

/-- The first index after `i` whose token satisfies `p`. -/
def indexOfNext? (p : Token → Bool) (ts : List Token) (i : Nat) : Option Nat :=
  ((ts.drop (i + 1)).findIdx? p).map (i + 1 + ·)

/-- The last index before `i` whose token satisfies `p`. -/
def indexOfPrevious? (p : Token → Bool) (ts : List Token) (i : Nat) : Option Nat :=
  ((ts.take i).reverse.findIdx? p).map ((ts.take i).length - 1 - ·)

/-- The first index after `i` whose token carries syntax. -/
def nextSignificant? (ts : List Token) (i : Nat) : Option Nat :=
  indexOfNext? (fun t => !t.isTrivia) ts i

/-- The last index before `i` whose token carries syntax. -/
def previousSignificant? (ts : List Token) (i : Nat) : Option Nat :=
  indexOfPrevious? (fun t => !t.isTrivia) ts i

/-- The first index from `i` on whose token does not exist or carries syntax. -/
def skipTrivia (ts : List Token) (i : Nat) : Nat :=
  i + (leadingTrivia (ts.drop i)).length

/-- The index of the first token on the line of index `i`. -/
def lineStart (ts : List Token) (i : Nat) : Nat :=
  ((indexOfPrevious? Token.isLinebreak ts i).map (· + 1)).getD 0

/-- The index of the line end after index `i`. -/
def lineEnd? (ts : List Token) (i : Nat) : Option Nat :=
  indexOfNext? Token.isLinebreak ts i

/-- The whitespace in front of the line of index `i`. -/
def indentation? (ts : List Token) (i : Nat) : Option Token :=
  ts[lineStart ts i]?.filter Token.isWhitespace

/-- A search forward answers with an index after the start, whose token satisfies `p`. -/
theorem of_indexOfNext? {p : Token → Bool} {ts : List Token} {i j : Nat}
    (h : indexOfNext? p ts i = some j) : i < j ∧ ts[j]?.any p = true := by
  obtain ⟨k, hk, rfl⟩ := Option.map_eq_some_iff.1 h
  obtain ⟨hlt, hp, -⟩ := List.findIdx?_eq_some_iff_getElem.1 hk
  rw [List.getElem_drop] at hp
  rw [List.length_drop] at hlt
  refine ⟨by omega, ?_⟩
  rw [List.getElem?_eq_getElem (by omega)]
  simpa using hp

/-- A search backward answers with an index before the start, whose token satisfies `p`. -/
theorem of_indexOfPrevious? {p : Token → Bool} {ts : List Token} {i j : Nat}
    (h : indexOfPrevious? p ts i = some j) : j < i ∧ ts[j]?.any p = true := by
  obtain ⟨k, hk, rfl⟩ := Option.map_eq_some_iff.1 h
  obtain ⟨hlt, hp, -⟩ := List.findIdx?_eq_some_iff_getElem.1 hk
  rw [List.getElem_reverse, List.getElem_take] at hp
  simp only [List.length_reverse, List.length_take] at hlt hp ⊢
  refine ⟨by omega, ?_⟩
  rw [List.getElem?_eq_getElem (by omega)]
  simpa using hp

end Kotlinize
