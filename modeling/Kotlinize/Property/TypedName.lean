import Kotlinize.Token.Basic

namespace Kotlinize

/-!
# Typed variables

* `isVariableKeyword` — the keyword that declares a variable.
* `TypedName`, `typedName?` — the name and the colon after it, up to the type.
* `isTypeToken` — the tokens of a type, as far as they are recognised.
-/

/-- Whether a token declares a variable. -/
def isVariableKeyword (t : Token) : Bool := t.is .keyword "var"

/-- The Kotlin keyword that declares a variable without a setter. -/
def constantKeyword : Token := .keyword "val"

/-- The tokens after a variable keyword: name and colon with the trivia around them, and the
tokens from the type on. -/
structure TypedName where
  lead : List Token
  type : List Token
deriving DecidableEq, Repr

/-- The tokens as they stand in the text. -/
def TypedName.whole (n : TypedName) : List Token := n.lead ++ n.type

/-- The typed name after a variable keyword followed by `ts`: a name and a colon, with any trivia
before, between and behind them. -/
def typedName? (ts : List Token) : Option TypedName :=
  match significant ts with
  | [] => none
  | name :: afterName =>
    match significant afterName with
    | [] => none
    | colon :: afterColon =>
      if name.isIdentifier && colon.is .symbol ":" then
        some
          { lead := leadingTrivia ts ++ name :: (leadingTrivia afterName
              ++ colon :: leadingTrivia afterColon)
            type := significant afterColon }
      else none

theorem whole_of_typedName? {ts : List Token} {n : TypedName} (h : typedName? ts = some n) :
    n.whole = ts := by
  unfold typedName? at h
  split at h
  · cases h
  · rename_i name afterName h₁
    split at h
    · cases h
    · rename_i colon afterColon h₂
      split at h
      · cases h
        simp only [TypedName.whole, List.append_assoc, List.cons_append,
          leadingTrivia_append_significant]
        rw [← h₂, leadingTrivia_append_significant, ← h₁, leadingTrivia_append_significant]
      · cases h

/-- Whether a token belongs to a type: a name, or one of the given marks, whatever its kind. -/
def isTypeToken (marks : List String) (t : Token) : Bool :=
  t.isIdentifier || marks.contains t.text

end Kotlinize
