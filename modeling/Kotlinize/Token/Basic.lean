namespace Kotlinize

/-!
# Tokens

Swift source and the Kotlin text made from it are both lists of tokens. The tokens lose
nothing: blanks, line ends and comments are tokens too.

* `Position` — line and byte column of a token's first character.
* `TokenKind`, `Token` — the pieces themselves.
* `Token.key` — what counts when tokens are compared: kind and text, wherever they stand.
* `Token.isTrivia`, `Token.isSpacing` — the tokens that carry no syntax.
* `Token.space`, `Token.symbol`, … — tokens that an edit inserts.
* `render`, `spelling` — the text of a token list, as a string and as characters.
-/

/-! ### Positions -/

/-- A place in a source text: line and byte column, both counted from one. -/
structure Position where
  line : Nat
  column : Nat
deriving DecidableEq, Repr

/-- The place of a token that no source text holds, because an edit inserted it. -/
def Position.unplaced : Position := ⟨0, 0⟩

/-- The place of a text's first character. -/
def Position.start : Position := ⟨1, 1⟩

/-! ### Kinds -/

/-- What a token is. -/
inductive TokenKind where
  /-- A plain or escaped name; `get`, `set`, `willSet` and `didSet` are names too. -/
  | identifier
  /-- A reserved word, an `@attribute` or a `#directive`. -/
  | keyword
  /-- A numeric literal. -/
  | number
  /-- A string literal with its quotes. -/
  | stringLiteral
  /-- An operator or a punctuation mark. -/
  | symbol
  /-- An opening bracket. -/
  | startOfScope
  /-- A closing bracket. -/
  | endOfScope
  /-- A run of spaces and tabs. -/
  | whitespace
  /-- One line terminator. -/
  | linebreak
  /-- A line comment or a block comment. -/
  | comment
deriving DecidableEq, Hashable, Repr

namespace TokenKind

/-- Every kind, in the order of declaration. -/
def all : List TokenKind :=
  [identifier, keyword, number, stringLiteral, symbol, startOfScope, endOfScope, whitespace,
    linebreak, comment]

/-- The kind's written name. -/
def name : TokenKind → String
  | identifier => "Identifier"
  | keyword => "Keyword"
  | number => "Number"
  | stringLiteral => "StringLiteral"
  | symbol => "Symbol"
  | startOfScope => "StartOfScope"
  | endOfScope => "EndOfScope"
  | whitespace => "Whitespace"
  | linebreak => "Linebreak"
  | comment => "Comment"

/-- The kind of a written name. -/
def named? (text : String) : Option TokenKind :=
  all.find? fun kind => kind.name == text

theorem mem_all (kind : TokenKind) : kind ∈ all := by
  cases kind <;> decide

end TokenKind

/-! ### Tokens -/

/-- A piece of a source text: its kind, its exact text and where it was read. -/
structure Token where
  kind : TokenKind
  text : String
  pos : Position := .unplaced
deriving DecidableEq, Repr

namespace Token

/-- What counts when two tokens are compared: kind and text, not the place. -/
def key (t : Token) : TokenKind × String := (t.kind, t.text)

/-- Whether two tokens read the same, wherever they stand. -/
def agrees (a b : Token) : Bool := a.key == b.key

/-- Tokens that read the same have one hash. -/
instance : Hashable Token where
  hash t := hash t.key

theorem agrees_iff {a b : Token} : a.agrees b = true ↔ a.key = b.key := by
  simp [agrees]

theorem hash_eq_of_agrees {a b : Token} (h : a.agrees b = true) : hash a = hash b := by
  change hash a.key = hash b.key
  rw [agrees_iff.1 h]

/-- Whether the token has this kind and this text. -/
def is (t : Token) (kind : TokenKind) (text : String) : Bool :=
  t.kind == kind && t.text == text

@[simp] theorem is_iff {t : Token} {kind : TokenKind} {text : String} :
    t.is kind text = true ↔ t.kind = kind ∧ t.text = text := by
  simp [is]

/-! ### Classes of tokens -/

def isIdentifier (t : Token) : Bool := t.kind == .identifier

def isKeyword (t : Token) : Bool := t.kind == .keyword

def isWhitespace (t : Token) : Bool := t.kind == .whitespace

def isLinebreak (t : Token) : Bool := t.kind == .linebreak

/-- Blanks and line ends, but not comments. -/
def isSpacing (t : Token) : Bool := t.kind == .whitespace || t.kind == .linebreak

/-- Blanks, line ends and comments: the tokens that carry no syntax. -/
def isTrivia (t : Token) : Bool := t.isSpacing || t.kind == .comment

theorem isTrivia_of_isSpacing {t : Token} (h : t.isSpacing = true) : t.isTrivia = true := by
  simp [isTrivia, h]

/-! ### Tokens that edits insert -/

def identifier (text : String) : Token := { kind := .identifier, text }

def keyword (text : String) : Token := { kind := .keyword, text }

def symbol (text : String) : Token := { kind := .symbol, text }

def whitespace (text : String) : Token := { kind := .whitespace, text }

/-- The separator that most edits insert: one space. -/
def space : Token := whitespace " "

/-- A line feed, for a text that shows no line end of its own. -/
def newline : Token := { kind := .linebreak, text := "\n" }

@[simp] theorem isWhitespace_space : space.isWhitespace = true := rfl

end Token

/-! ### Texts of token lists -/

/-- The text that a list of tokens spells. -/
def render (ts : List Token) : String := String.join (ts.map Token.text)

/-- The characters that a list of tokens spells. -/
def spelling (ts : List Token) : List Char := ts.flatMap fun t => t.text.toList

@[simp] theorem spelling_append (as bs : List Token) :
    spelling (as ++ bs) = spelling as ++ spelling bs :=
  List.flatMap_append

theorem toList_render (ts : List Token) : (render ts).toList = spelling ts := by
  simp [render, spelling, String.toList_join, List.flatMap_map]

/-- Whether two token lists read the same, wherever their tokens stand. -/
def agree (as bs : List Token) : Bool := as.map Token.key == bs.map Token.key

/-- The first tokens of a list up to the first one that carries syntax. -/
def leadingTrivia (ts : List Token) : List Token := ts.takeWhile Token.isTrivia

/-- A list of tokens from its first token that carries syntax. -/
def significant (ts : List Token) : List Token := ts.dropWhile Token.isTrivia

theorem leadingTrivia_append_significant (ts : List Token) :
    leadingTrivia ts ++ significant ts = ts :=
  List.takeWhile_append_dropWhile

theorem length_significant_le (ts : List Token) : (significant ts).length ≤ ts.length :=
  (List.dropWhile_sublist _).length_le

end Kotlinize
