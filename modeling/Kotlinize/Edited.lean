import Kotlinize.Token.Basic

namespace Kotlinize

/-!
# Counted edits

* `Edited` — a token list after some edits, with their number.
* `Edited.cons`, `Edited.append`, `Edited.counted` — how a pass over a list builds it.
-/

/-- A token list after some edits, and how many there were. -/
structure Edited where
  tokens : List Token
  count : Nat
deriving DecidableEq, Repr

namespace Edited

/-- No edit, and no token. -/
def nil : Edited := ⟨[], 0⟩

/-- One more token in front. -/
def cons (t : Token) (e : Edited) : Edited := { e with tokens := t :: e.tokens }

/-- More tokens in front. -/
def append (ts : List Token) (e : Edited) : Edited := { e with tokens := ts ++ e.tokens }

/-- The same tokens, counted as the outcome of `n` more edits. -/
def counted (n : Nat) (e : Edited) : Edited := { e with count := n + e.count }

@[simp] theorem tokens_nil : nil.tokens = [] := rfl

@[simp] theorem count_nil : nil.count = 0 := rfl

@[simp] theorem tokens_cons (t : Token) (e : Edited) : (e.cons t).tokens = t :: e.tokens := rfl

@[simp] theorem count_cons (t : Token) (e : Edited) : (e.cons t).count = e.count := rfl

@[simp] theorem tokens_append (ts : List Token) (e : Edited) :
    (e.append ts).tokens = ts ++ e.tokens := rfl

@[simp] theorem count_append (ts : List Token) (e : Edited) : (e.append ts).count = e.count := rfl

@[simp] theorem tokens_counted (n : Nat) (e : Edited) : (e.counted n).tokens = e.tokens := rfl

@[simp] theorem count_counted (n : Nat) (e : Edited) : (e.counted n).count = n + e.count := rfl

theorem append_cons (ts : List Token) (t : Token) (e : Edited) :
    (e.cons t).append ts = e.append (ts ++ [t]) := by
  simp [append, cons]

end Edited

end Kotlinize
