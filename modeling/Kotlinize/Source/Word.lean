import Kotlinize.Source.Character
import Kotlinize.Source.Cut

namespace Kotlinize

/-!
# Words, numbers and operators

* `reservedWords`, `wordKind` — which words are keywords; words that act as keywords only
  among accessors (`get`, `set`, `willSet`, `didSet`) are not.
* `number` — the rest of a numeric literal.
* `operators`, `operatorTail` — the operators of more than one character.
* `escapedName?` — the rest of a name between backticks.
-/

/-- The words that cannot be plain names. -/
def reservedWords : List String :=
  ["associatedtype", "class", "deinit", "enum", "extension", "fileprivate", "func", "import",
    "init", "inout", "internal", "let", "open", "operator", "private", "protocol", "public",
    "rethrows", "static", "struct", "subscript", "typealias", "var", "break", "case",
    "continue", "default", "defer", "do", "else", "fallthrough", "for", "guard", "if", "in",
    "repeat", "return", "switch", "where", "while", "as", "catch", "false", "is", "nil",
    "super", "self", "Self", "throw", "throws", "true", "try", "lazy", "weak", "unowned",
    "mutating", "override", "final", "required", "convenience", "dynamic", "indirect"]

/-- The rest of a word. -/
def word (cs : List Char) : Cut := Cut.takeWhile isNamePart cs

/-- How many characters of a numeric literal follow its first digit: letters, digits and
underscores, and points that a digit follows. -/
def numberLength : List Char → Nat
  | [] => 0
  | c :: cs =>
    if isNumberPart c || (c == '.' && cs.head?.any Char.isDigit) then numberLength cs + 1 else 0

/-- The rest of a numeric literal. -/
def number (cs : List Char) : Cut := Cut.take (numberLength cs) cs

/-- The operators of more than one character, the longer ones first. -/
def operators : List (List Char) :=
  [['.', '.', '.'], ['.', '.', '<'], ['=', '=', '='], ['!', '=', '='],
    ['-', '>'], ['=', '='], ['!', '='], ['<', '='], ['>', '='], ['&', '&'], ['|', '|'],
    ['?', '?'], ['+', '='], ['-', '='], ['*', '='], ['/', '=']]

/-- The rest of the operator that starts with `c`: the first of `operators` that the text
starts with, or `c` alone. -/
def operatorTail (c : Char) (cs : List Char) : Cut :=
  match operators.find? (·.isPrefixOf (c :: cs)) with
  | some op => Cut.take (op.length - 1) cs
  | none => Cut.take 0 cs

/-- The rest of a name between backticks, after the first one; `none` if the line ends before
the second. -/
def escapedName? : List Char → Option Cut
  | [] => none
  | c :: cs =>
    if c = '\x60' then some ⟨[c], cs⟩
    else if isLineEnd c then none
    else (escapedName? cs).map (Cut.cons c)

@[simp] theorem whole_word (cs : List Char) : (word cs).whole = cs := Cut.whole_takeWhile _ cs

@[simp] theorem whole_number (cs : List Char) : (number cs).whole = cs := Cut.whole_take _ cs

@[simp] theorem whole_operatorTail (c : Char) (cs : List Char) :
    (operatorTail c cs).whole = cs := by
  unfold operatorTail
  split <;> exact Cut.whole_take _ cs

theorem whole_of_escapedName? {cs : List Char} {k : Cut} (h : escapedName? cs = some k) :
    k.whole = cs := by
  fun_induction escapedName? cs generalizing k with
  | case1 | case3 => cases h
  | case2 => cases h; rfl
  | case4 _ _ _ _ ih =>
    obtain ⟨k', hk', rfl⟩ := Option.map_eq_some_iff.1 h
    simp [ih hk']

end Kotlinize
