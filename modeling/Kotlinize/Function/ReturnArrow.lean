import Kotlinize.Config
import Kotlinize.Edited
import Kotlinize.Function.ParameterList
import Kotlinize.Token.Spacing

namespace Kotlinize

/-!
# Return arrows

A Swift function declares its result behind an arrow, a Kotlin function behind a colon.

* `endsSignature` — what cannot stand between a parameter list and an arrow.
* `Signature`, `signature?` — the tokens after a function keyword, cut at its return arrow.
* `arrowsToColons` — the pass: arrows become colons close to what precedes them.
-/

/-- Words that never stand in a signature, besides the declaration keywords. -/
def declarationBoundaries : List String :=
  ["typealias", "subscript", "associatedtype", "deinit"]

/-- Keywords that go on with a signature even on a line of their own. -/
def effectKeywords : List String := ["throws", "rethrows"]

/-- Whether a token cannot belong to a signature any more: a body, the end of the enclosing
scope, another declaration, or a keyword that opens a line. -/
def endsSignature (config : Config) (onNewLine : Bool) (t : Token) : Bool :=
  Bracket.curly.opens t || Bracket.curly.closes t || config.isDeclarationKeyword t.text
    || declarationBoundaries.contains t.text
    || (onNewLine && t.isKeyword && !effectKeywords.contains t.text)

/-- Tokens cut at an arrow: those before it, the arrow, and those after it. -/
structure Signature where
  before : List Token
  arrow : Token
  result : List Token
deriving DecidableEq, Repr

namespace Signature

/-- The tokens as they stand in the text. -/
def whole (s : Signature) : List Token := s.before ++ s.arrow :: s.result

/-- More tokens in front. -/
def append (ts : List Token) (s : Signature) : Signature := { s with before := ts ++ s.before }

@[simp] theorem whole_append (ts : List Token) (s : Signature) :
    (s.append ts).whole = ts ++ s.whole := by
  simp [whole, append]

end Signature

/-- Whether a token is an arrow. -/
def isArrow (t : Token) : Bool := t.is .symbol "->"

/-- The first arrow of a text that follows a parameter list, before the signature ends;
`onNewLine` says whether a line ended since the last token that carries syntax. -/
def arrowAfterList? (config : Config) (onNewLine : Bool) : List Token → Option Signature
  | [] => none
  | t :: ts =>
    if t.isTrivia then
      (arrowAfterList? config (onNewLine || t.isLinebreak) ts).map (Signature.append [t])
    else if isArrow t then some ⟨[], t, ts⟩
    else if endsSignature config onNewLine t then none
    else (arrowAfterList? config false ts).map (Signature.append [t])

/-- The signature of a function keyword followed by `ts`, cut at its return arrow. -/
def signature? (config : Config) (ts : List Token) : Option Signature :=
  match parameterList? ts with
  | none => none
  | some p =>
    (arrowAfterList? config false p.enclosed.tail).map
      (Signature.append (p.name ++ p.opener :: (p.enclosed.inside ++ [p.enclosed.close])))

theorem whole_of_arrowAfterList? {config : Config} {onNewLine : Bool} {ts : List Token}
    {s : Signature} (h : arrowAfterList? config onNewLine ts = some s) : s.whole = ts := by
  fun_induction arrowAfterList? config onNewLine ts generalizing s with
  | case1 | case4 => cases h
  | case3 => cases h; rfl
  | case2 _ _ _ _ ih | case5 _ _ _ _ _ _ ih =>
    obtain ⟨s', hs', rfl⟩ := Option.map_eq_some_iff.1 h
    simp [ih hs']

theorem whole_of_signature? {config : Config} {ts : List Token} {s : Signature}
    (h : signature? config ts = some s) : s.whole = ts := by
  unfold signature? at h
  split at h
  · cases h
  · rename_i p hp
    obtain ⟨s', hs', rfl⟩ := Option.map_eq_some_iff.1 h
    rw [Signature.whole_append, whole_of_arrowAfterList? hs', ← whole_of_parameterList? hp]
    simp [ParameterList.whole, Enclosed.whole]

theorem length_result_lt {config : Config} {ts : List Token} {s : Signature}
    (h : signature? config ts = some s) : s.result.length < ts.length := by
  rw [← whole_of_signature? h]
  simp only [Signature.whole, List.length_append, List.length_cons]
  omega

/-- Writes a colon for the return arrow of each function: right behind the token before it, and
with whitespace behind it. The pass goes on behind the colon, so that a function inside the
parameter list of another keeps its arrow. The count is the number of arrows replaced. -/
def arrowsToColons (config : Config) : List Token → Edited
  | [] => .nil
  | t :: ts =>
    if isFunctionKeyword t then
      match _h : signature? config ts with
      | some s =>
        ((arrowsToColons config s.result).append
          (t :: (dropSpacingEnd s.before ++ .symbol ":" :: gapBefore s.result))).counted 1
      | none => (arrowsToColons config ts).cons t
    else (arrowsToColons config ts).cons t
termination_by ts => ts.length
decreasing_by
  · exact Nat.lt_succ_of_lt (length_result_lt _h)
  · exact Nat.lt_succ_self _
  · exact Nat.lt_succ_self _

end Kotlinize
