import Kotlinize.Token.Bracket

namespace Kotlinize

/-!
# Parameter lists

* `isFunctionKeyword` — the keyword that starts a function declaration.
* `ParameterList`, `parameterList?` — the parameter list after that keyword.
* `Parameters`, `splitParameters` — its parameters, cut at the commas outside inner brackets.
-/

/-- Whether a token starts a function declaration. -/
def isFunctionKeyword (t : Token) : Bool := t.is .keyword "func"

/-- The tokens after a function keyword: those before the parameter list, its opening
parenthesis, and what that encloses and leaves. -/
structure ParameterList where
  name : List Token
  opener : Token
  enclosed : Enclosed
deriving DecidableEq, Repr

/-- The tokens as they stand in the text. -/
def ParameterList.whole (p : ParameterList) : List Token :=
  p.name ++ p.opener :: p.enclosed.whole

/-- Whether a token opens a parameter list or a body. -/
def opensListOrBody (t : Token) : Bool := Bracket.round.opens t || Bracket.curly.opens t

/-- The parameter list of a function keyword followed by `ts`: the first parenthesis or brace
opens it, if it is a parenthesis and has a partner. -/
def parameterList? (ts : List Token) : Option ParameterList :=
  match ts.dropWhile (fun t => !opensListOrBody t) with
  | [] => none
  | opener :: rest =>
    if Bracket.round.opens opener then
      (Bracket.round.enclosed? 0 rest).map
        (⟨ts.takeWhile (fun t => !opensListOrBody t), opener, ·⟩)
    else none

theorem whole_of_parameterList? {ts : List Token} {p : ParameterList}
    (h : parameterList? ts = some p) : p.whole = ts := by
  unfold parameterList? at h
  split at h
  · cases h
  · rename_i opener rest hd
    split at h
    · obtain ⟨e, he, rfl⟩ := Option.map_eq_some_iff.1 h
      simp only [ParameterList.whole, Bracket.whole_of_enclosed? he]
      rw [← hd, List.takeWhile_append_dropWhile]
    · cases h

/-! ### Single parameters -/

/-- The parameters of a list: the first, and each later one with the comma before it. -/
structure Parameters where
  first : List Token
  later : List (Token × List Token)
deriving DecidableEq, Repr

namespace Parameters

/-- The tokens as they stand in the text. -/
def whole (ps : Parameters) : List Token := ps.first ++ ps.later.flatMap fun p => p.1 :: p.2

/-- One more token at the front of the first parameter. -/
def cons (t : Token) (ps : Parameters) : Parameters := { ps with first := t :: ps.first }

/-- Each parameter by itself. -/
def toList (ps : Parameters) : List (List Token) := ps.first :: ps.later.map Prod.snd

@[simp] theorem whole_cons (t : Token) (ps : Parameters) :
    (ps.cons t).whole = t :: ps.whole := rfl

end Parameters

/-- Cuts the inside of a parameter list at the commas at depth 0, when `depth` brackets are
open. -/
def splitParameters (depth : Nat) : List Token → Parameters
  | [] => ⟨[], []⟩
  | t :: ts =>
    if depth == 0 && t.is .symbol "," then
      let ps := splitParameters 0 ts
      ⟨[], (t, ps.first) :: ps.later⟩
    else (splitParameters (t.depthFrom depth) ts).cons t

/-- Cutting loses nothing. -/
@[simp] theorem whole_splitParameters (depth : Nat) (ts : List Token) :
    (splitParameters depth ts).whole = ts := by
  induction ts generalizing depth with
  | nil => rfl
  | cons t ts ih =>
    unfold splitParameters
    split
    · simpa [Parameters.whole] using ih 0
    · simp [ih]

end Kotlinize
