import Kotlinize.Pipeline
import Kotlinize.Source.Tokenize

namespace Kotlinize

/-!
# From Swift to Kotlin

* `Failure` — why a text cannot be converted.
* `convertWithReport`, `convert` — from text to text.
-/

/-- Why a source text cannot be converted. -/
inductive Failure where
  /-- It cannot be cut into tokens. -/
  | lexical (e : LexError)
  /-- A stage lost a scope. -/
  | imbalance (e : ScopeImbalance)
deriving DecidableEq, Repr

/-- The failure in words. -/
def Failure.message : Failure → String
  | lexical e => e.message
  | imbalance e => e.message

/-- A converted text, with the report of the run. -/
structure Conversion where
  text : String
  report : Report
deriving DecidableEq, Repr

/-- Converts a Swift text to Kotlin syntax and reports what each stage did. -/
def convertWithReport (config : Config) (source : String) : Except Failure Conversion :=
  match tokenize source with
  | .error e => .error (.lexical e)
  | .ok ts =>
    match convertTokens config ts with
    | .error e => .error (.imbalance e)
    | .ok o => .ok ⟨render o.tokens, o.report⟩

/-- Converts a Swift text to Kotlin syntax. -/
def convert (config : Config) (source : String) : Except Failure String :=
  (convertWithReport config source).map Conversion.text

end Kotlinize
