import Kotlinize.Call.ColonRole
import Kotlinize.Edited
import Kotlinize.Token.Spacing

namespace Kotlinize

/-!
# Named arguments

A Swift call names an argument by `name: value`, a Kotlin call by `name = value`.

* `isColon` — the colons in question.
* `nameArgumentsAfter` — the pass, behind tokens already written.
* `nameArguments` — every call-site colon becomes an equals sign between two spaces.
-/

/-- Whether a token is a colon. -/
def isColon (t : Token) : Bool := t.is .symbol ":"

/-- What stands for a call-site colon between the tokens `written`, the nearest first, and the
tokens `ts`: an equals sign with whitespace on both sides, though not in front of a text. -/
def equalsSign (written ts : List Token) : List Token :=
  (if written.head?.any (fun t => !t.isWhitespace) then [.space] else [])
    ++ .symbol "=" :: gapBefore ts

/-- Replaces the call-site colons of a list that follows the tokens `written`, the nearest
first. A colon's role is guessed from what is written before it. -/
def nameArgumentsAfter (config : Config) : (written : List Token) → List Token → Edited
  | _, [] => .nil
  | written, t :: ts =>
    if isColon t && (ColonRole.ofPreceding config (some t) written).isCallSite then
      let sign := equalsSign written ts
      ((nameArgumentsAfter config (sign.reverse ++ written) ts).append sign).counted 1
    else (nameArgumentsAfter config (t :: written) ts).cons t

/-- Replaces every call-site colon by an equals sign; the count is the number of colons. -/
def nameArguments (config : Config) (ts : List Token) : Edited :=
  nameArgumentsAfter config [] ts

end Kotlinize
