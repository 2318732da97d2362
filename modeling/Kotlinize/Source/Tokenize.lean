import Kotlinize.Source.Lexeme

namespace Kotlinize

/-!
# From text to tokens

* `Position.after` — where the text goes on after a lexeme.
* `LexError` — the first fault of a text, and where the lexeme it spoils would start.
* `tokenizeAt`, `tokenize` — the tokens of a text; one byte order mark in front is dropped.
* `spelling_of_tokenize` — the tokens spell the text.
-/

namespace Position

/-- The place after one character of a lexeme: a line feed starts a line, any other character
takes the columns of its bytes. -/
def advance (p : Position) (c : Char) : Position :=
  if c = '\n' then ⟨p.line + 1, 1⟩ else ⟨p.line, p.column + c.utf8Size⟩

/-- The place after a lexeme. A line terminator starts a line, a lone carriage return too. -/
def after (p : Position) (kind : TokenKind) (text : List Char) : Position :=
  if kind = .linebreak then ⟨p.line + 1, 1⟩ else text.foldl advance p

end Position

/-- Why a text cannot be cut into tokens, and the place of the first lexeme that fails. -/
structure LexError where
  fault : Fault
  pos : Position
deriving DecidableEq, Repr

/-- The error in words, with its place. -/
def LexError.message (e : LexError) : String :=
  s!"{e.fault.message} at line {e.pos.line}, column {e.pos.column}"

/-- The token of the lexeme that starts with `c` at a place. -/
def Lexeme.token (c : Char) (pos : Position) (l : Lexeme) : Token :=
  ⟨l.kind, String.ofList (l.text c), pos⟩

/-- The tokens of a text that starts at a place. -/
def tokenizeAt (pos : Position) : List Char → Except LexError (List Token)
  | [] => .ok []
  | c :: cs =>
    match _h : Lexeme.next c cs with
    | .error fault => .error ⟨fault, pos⟩
    | .ok l => (tokenizeAt (pos.after l.kind (l.text c)) l.rest).map (l.token c pos :: ·)
termination_by cs => cs.length
decreasing_by
  simpa using Nat.lt_succ_of_le (Lexeme.length_rest_le_of_next _h)

/-- A text without the byte order mark in front of it. -/
def dropMark : List Char → List Char
  | [] => []
  | c :: cs => if c = '\ufeff' then cs else c :: cs

/-- The tokens of a source text. -/
def tokenize (source : String) : Except LexError (List Token) :=
  tokenizeAt .start (dropMark source.toList)

theorem spelling_of_tokenizeAt {pos : Position} {cs : List Char} {ts : List Token}
    (h : tokenizeAt pos cs = .ok ts) : spelling ts = cs := by
  fun_induction tokenizeAt pos cs generalizing ts with
  | case1 => cases h; rfl
  | case2 => cases h
  | case3 pos c cs l hl ih =>
    cases hr : tokenizeAt (pos.after l.kind (l.text c)) l.rest with
    | error e => simp [hr, Except.map] at h
    | ok us =>
      simp only [hr, Except.map, Except.ok.injEq] at h
      subst h
      rw [← Lexeme.text_append_rest_of_next hl, ← ih hr]
      simp [spelling, Lexeme.token]

/-- The tokens of a text spell the text, its byte order mark apart. -/
theorem spelling_of_tokenize {source : String} {ts : List Token}
    (h : tokenize source = .ok ts) : spelling ts = dropMark source.toList :=
  spelling_of_tokenizeAt h

end Kotlinize
