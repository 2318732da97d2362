import Kotlinize.Token.Basic
import Kotlinize.Source.Comment
import Kotlinize.Source.StringLiteral
import Kotlinize.Source.Word

namespace Kotlinize

/-!
# Lexemes

* `Fault` — why no lexeme can be read.
* `Lexeme` — the first lexeme of a text, with the text left behind it; as the first character
  belongs to it, no lexeme is empty.
* `Lexeme.layout?`, `Lexeme.delimited?`, `Lexeme.plain` — the three families of lexemes.
* `Lexeme.next` — reads it; `Lexeme.whole_of_next` says that nothing is lost and
  `Lexeme.length_rest_le_of_next` that the text gets shorter.
-/

/-- Why a text has no first lexeme. -/
inductive Fault where
  /-- A string literal whose closing quotes are missing. -/
  | unterminatedString
  /-- A block comment that is not closed. -/
  | unterminatedComment
  /-- A character that starts no lexeme. -/
  | unexpectedCharacter (c : Char)
deriving DecidableEq, Repr

namespace Fault

/-- The kind's written name. -/
def name : Fault → String
  | unterminatedString => "UnterminatedString"
  | unterminatedComment => "UnterminatedComment"
  | unexpectedCharacter _ => "UnexpectedCharacter"

/-- The fault in words. -/
def message : Fault → String
  | unterminatedString => "unterminated string literal"
  | unterminatedComment => "unterminated block comment"
  | unexpectedCharacter c => "unexpected character: " ++ characterName c

end Fault

/-- The first lexeme of a text whose first character is known: its kind, and the cut of the
characters after the first one into those that go on with the lexeme and those left. -/
structure Lexeme where
  kind : TokenKind
  more : Cut
deriving DecidableEq, Repr

namespace Lexeme

/-- The characters of the lexeme that starts with `c`. -/
def text (c : Char) (l : Lexeme) : List Char := c :: l.more.text

/-- The characters after the lexeme. -/
def rest (l : Lexeme) : List Char := l.more.rest

/-- A line feed belongs to the carriage return before it. -/
def lineEndTail (c : Char) (cs : List Char) : Cut :=
  Cut.take (if c = '\r' ∧ cs.head? = some '\n' then 1 else 0) cs

/-- The rest of a block comment, after its first character. -/
def blockCommentTail? (cs : List Char) : Option Cut :=
  (blockComment? 0 (cs.drop 1)).map fun k => ⟨cs.take 1 ++ k.text, k.rest⟩

/-- The number of hashes of the string literal that a text starts with; `none` if it starts
with no string literal. -/
def literalHashes? (cs : List Char) : Option Nat :=
  let hashes := (cs.takeWhile (· == '#')).length
  if (cs.drop hashes).head? = some '"' then some hashes else none

/-- The kind of a word: reserved words are keywords. -/
def wordKind (text : List Char) : TokenKind :=
  if reservedWords.contains (String.ofList text) then .keyword else .identifier

/-- A lexeme, if the cut that it needs exists. -/
def orFault (fault : Fault) (kind : TokenKind) : Option Cut → Except Fault Lexeme
  | some k => .ok ⟨kind, k⟩
  | none => .error fault

/-- A line end, a run of blanks or a line comment at the start of the text `c :: cs`. -/
def layout? (c : Char) (cs : List Char) : Option Lexeme :=
  if isLineEnd c then some ⟨.linebreak, lineEndTail c cs⟩
  else if isBlank c then some ⟨.whitespace, Cut.takeWhile isBlank cs⟩
  else if c = '/' ∧ cs.head? = some '/' then some ⟨.comment, lineComment cs⟩
  else none

/-- A block comment, a string literal or an escaped name at the start of the text `c :: cs`:
the lexemes that can lack their end. -/
def delimited? (c : Char) (cs : List Char) : Option (Except Fault Lexeme) :=
  if c = '/' ∧ cs.head? = some '*' then
    some (orFault .unterminatedComment .comment (blockCommentTail? cs))
  else if c = '\x60' then some (orFault (.unexpectedCharacter c) .identifier (escapedName? cs))
  else match literalHashes? (c :: cs) with
  | some hashes =>
    some (orFault .unterminatedString .stringLiteral (stringLiteral? hashes c cs))
  | none => none

/-- A bracket, an attribute, a number, a word or an operator at the start of the text
`c :: cs`. -/
def plain (c : Char) (cs : List Char) : Except Fault Lexeme :=
  if c = '(' ∨ c = '[' ∨ c = '\x7b' then .ok ⟨.startOfScope, Cut.take 0 cs⟩
  else if c = ')' ∨ c = ']' ∨ c = '\x7d' then .ok ⟨.endOfScope, Cut.take 0 cs⟩
  else if (c = '@' ∨ c = '#') ∧ cs.head?.any isNameStart = true then .ok ⟨.keyword, word cs⟩
  else if c.isDigit then .ok ⟨.number, number cs⟩
  else if isNameStart c then .ok ⟨wordKind (c :: (word cs).text), word cs⟩
  else if isVisible c then .ok ⟨.symbol, operatorTail c cs⟩
  else .error (.unexpectedCharacter c)

/-- The first lexeme of the text `c :: cs`. -/
def next (c : Char) (cs : List Char) : Except Fault Lexeme :=
  match layout? c cs with
  | some l => .ok l
  | none => (delimited? c cs).getD (plain c cs)

theorem whole_of_blockCommentTail? {cs : List Char} {k : Cut}
    (h : blockCommentTail? cs = some k) : k.whole = cs := by
  obtain ⟨k', hk', rfl⟩ := Option.map_eq_some_iff.1 h
  have hw : k'.text ++ k'.rest = cs.drop 1 := whole_of_blockComment? hk'
  rw [Cut.whole, List.append_assoc, hw, List.take_append_drop]

theorem whole_of_orFault {fault : Fault} {kind : TokenKind} {k? : Option Cut}
    {cs : List Char} {l : Lexeme} (hk : ∀ k, k? = some k → k.whole = cs)
    (h : orFault fault kind k? = .ok l) : l.more.whole = cs := by
  cases k? with
  | none => cases h
  | some k => cases h; exact hk k rfl

theorem whole_of_layout? {c : Char} {cs : List Char} {l : Lexeme}
    (h : layout? c cs = some l) : l.more.whole = cs := by
  unfold layout? at h
  split at h
  · cases h; exact Cut.whole_take _ cs
  split at h
  · cases h; exact Cut.whole_takeWhile _ cs
  split at h
  · cases h; exact whole_lineComment cs
  · cases h

theorem whole_of_delimited? {c : Char} {cs : List Char} {l : Lexeme}
    (h : delimited? c cs = some (.ok l)) : l.more.whole = cs := by
  unfold delimited? at h
  split at h
  · exact whole_of_orFault (fun _ => whole_of_blockCommentTail?) (Option.some.inj h)
  split at h
  · exact whole_of_orFault (fun _ => whole_of_escapedName?) (Option.some.inj h)
  split at h
  · exact whole_of_orFault (fun _ => whole_of_stringLiteral?) (Option.some.inj h)
  · cases h

theorem whole_of_plain {c : Char} {cs : List Char} {l : Lexeme}
    (h : plain c cs = .ok l) : l.more.whole = cs := by
  unfold plain at h
  split at h
  · cases h; exact Cut.whole_take _ cs
  split at h
  · cases h; exact Cut.whole_take _ cs
  split at h
  · cases h; exact whole_word cs
  split at h
  · cases h; exact whole_number cs
  split at h
  · cases h; exact whole_word cs
  split at h
  · cases h; exact whole_operatorTail c cs
  · cases h

/-- Nothing is lost: the characters that go on with the lexeme and those left make up the
text after the first character. -/
theorem whole_of_next {c : Char} {cs : List Char} {l : Lexeme} (h : next c cs = .ok l) :
    l.more.whole = cs := by
  unfold next at h
  split at h
  · cases h
    exact whole_of_layout? ‹_›
  · cases hd : delimited? c cs with
    | none => exact whole_of_plain (by simpa [hd] using h)
    | some r =>
      obtain rfl : r = .ok l := by simpa [hd] using h
      exact whole_of_delimited? hd

theorem text_append_rest_of_next {c : Char} {cs : List Char} {l : Lexeme}
    (h : next c cs = .ok l) : l.text c ++ l.rest = c :: cs := by
  rw [← whole_of_next h]; rfl

/-- The text left is no longer than the text after the first character. -/
theorem length_rest_le_of_next {c : Char} {cs : List Char} {l : Lexeme}
    (h : next c cs = .ok l) : l.rest.length ≤ cs.length := by
  rw [← whole_of_next h]
  exact Cut.length_rest_le _

end Lexeme

end Kotlinize
