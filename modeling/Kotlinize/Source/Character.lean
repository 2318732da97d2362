namespace Kotlinize

/-!
# Character classes

The classes by which a source text is cut. Letters and digits are those of ASCII; every
character outside ASCII belongs to names.

* `isLineEnd`, `isBlank` — line feed and carriage return; space and tab.
* `isNameStart`, `isNamePart` — how a name starts and goes on.
* `isNumberPart` — how a number goes on, decimal points apart.
* `isVisible` — printable ASCII, the space excepted.
* `characterName` — how a message names a character.
-/

/-- A line feed or a carriage return. -/
def isLineEnd (c : Char) : Bool := c == '\n' || c == '\r'

/-- A space or a tab. -/
def isBlank (c : Char) : Bool := c == ' ' || c == '\t'

/-- A letter, an underscore, a dollar sign or any character outside ASCII. -/
def isNameStart (c : Char) : Bool := c.isAlpha || c == '_' || c == '$' || 0x80 ≤ c.toNat

/-- A character that starts a name, or a digit. -/
def isNamePart (c : Char) : Bool := isNameStart c || c.isDigit

/-- A letter, a digit or an underscore. -/
def isNumberPart (c : Char) : Bool := c.isAlphanum || c == '_'

/-- A printable ASCII character other than the space. -/
def isVisible (c : Char) : Bool := 0x21 ≤ c.toNat && c.toNat ≤ 0x7e

theorem isNamePart_of_isNameStart {c : Char} (h : isNameStart c = true) :
    isNamePart c = true := by
  simp [isNamePart, h]

/-- The digits of a number in base sixteen, in lower case and without leading zeros. -/
def hexadecimal (n : Nat) : String := String.ofList (Nat.toDigits 16 n)

/-- How a message names a character: a control character by its number, as `\0` or
`\u{1f}`, any other by itself. -/
def characterName (c : Char) : String :=
  if c.toNat = 0 then "\\0"
  else if c.toNat < 0x20 || c.toNat = 0x7f then "\\u\x7b" ++ hexadecimal c.toNat ++ "\x7d"
  else c.toString

end Kotlinize
