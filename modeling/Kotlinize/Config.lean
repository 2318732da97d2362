namespace Kotlinize

/-!
# Configuration

The words that tune the guesses about a token's role and the texts that edits insert.

* `Config` — the settings, each with its default.
* `Config.isDeclarationKeyword`, `Config.isClosureOpener` — membership in the two tables.
-/

/-- Settings shared by the stages. -/
structure Config where
  /-- Words that mark a later colon as a type annotation. -/
  declarationKeywords : List String :=
    ["var", "let", "class", "struct", "enum", "Self", "init", "func"]
  /-- Texts that, right after an opening brace, mark the start of a closure signature. -/
  closureOpeners : List String := ["(", "["]
  /-- The name of the value passed to a setter that declares none. -/
  implicitSetterParameter : String := "newValue"
  /-- One level of indentation, for a line moved below its declaration. -/
  indentUnit : String := "\t"
deriving DecidableEq, Repr

namespace Config

/-- Every setting at its default. -/
def default : Config := {}

/-- Whether a word, found before a colon, marks the colon as a type annotation. -/
def isDeclarationKeyword (config : Config) (text : String) : Bool :=
  config.declarationKeywords.contains text

/-- Whether a text, right after an opening brace, starts a closure signature. -/
def isClosureOpener (config : Config) (text : String) : Bool :=
  config.closureOpeners.contains text

end Config

end Kotlinize
