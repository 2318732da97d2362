import Kotlinize.Config
import Kotlinize.Token.Bracket

namespace Kotlinize

/-!
# The role of a colon

Swift writes a colon between the name and the value of an argument and also between a name and
its type. Which of the two a colon is gets guessed from the tokens in front of it, the nearest
first.

* `ColonRole` — the four answers.
* `ColonRole.ofPreceding` — the guess, from the preceding tokens in reverse.
* `colonRole` — the guess at an index of a token list.
-/

/-- What a colon separates, as far as the tokens in front of it show. -/
inductive ColonRole where
  /-- A declaration keyword comes first: a name from its type. -/
  | declaration
  /-- An opening brace of a closure signature comes first: a name from its type. -/
  | closure
  /-- A point or an arrow comes first: an argument's name from its value. -/
  | callSite
  /-- Nothing decides; taken for a call. -/
  | ambiguous
deriving DecidableEq, Repr

namespace ColonRole

/-- The role's written name. -/
def name : ColonRole → String
  | declaration => "Declaration"
  | closure => "Closure"
  | callSite => "CallSite"
  | ambiguous => "Ambiguous"

/-- Whether the colon separates an argument's name from its value. -/
def isCallSite : ColonRole → Bool
  | callSite | ambiguous => true
  | declaration | closure => false

/-- The role that one token decides, if it decides any; `next?` is the first token after it
that carries syntax. A brace opens a closure signature if a closure opener follows it. -/
def decidedBy? (config : Config) (next? : Option Token) (t : Token) : Option ColonRole :=
  if config.isDeclarationKeyword t.text then some declaration
  else if Bracket.curly.opens t && next?.any (fun n => config.isClosureOpener n.text) then
    some closure
  else if t.is .symbol "." || t.is .symbol "->" then some callSite
  else none

/-- The role of a colon behind the given tokens, the nearest one first; `next?` is the first
token after them that carries syntax. -/
def ofPreceding (config : Config) (next? : Option Token) : List Token → ColonRole
  | [] => ambiguous
  | t :: before =>
    (decidedBy? config next? t).getD
      (ofPreceding config (if t.isTrivia then next? else some t) before)

end ColonRole

/-- The role of a colon at index `i`: the tokens before the index decide, whatever stands at it,
and an index past the end sees the whole list. -/
def colonRole (config : Config) (ts : List Token) (i : Nat) : ColonRole :=
  ColonRole.ofPreceding config (significant (ts.drop i)).head? (ts.take i).reverse

end Kotlinize
