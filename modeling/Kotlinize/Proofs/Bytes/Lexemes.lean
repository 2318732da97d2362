import Kotlinize.Proofs.Bytes.Literal

namespace Kotlinize

/-!
# Lexemes of bytes

A boundary that is found byte by byte could fall inside a character.  It never does, because
every reader takes the bytes of what it takes of the text.

* `next_bytewise`, `lexemes_bytewise` — the lexemes of the bytes of a text.
* `byteLexemes`, `byteLexemes_eq_tokenize` — the lexemes of bytes are the bytes of the tokens.
* `tokenize_lossless` — cutting a text into tokens loses nothing.
-/

/-! ### Lexemes -/

/-- A lexeme of a text, in bytes. -/
def Lexeme.bytes (l : Lexeme) : Lexeme := ⟨l.kind, l.more.bytes⟩

theorem layout?_bytewise (c : Char) (cs : List Char) :
    Lexeme.layout? c (bytewise cs) = (Lexeme.layout? c cs).map Lexeme.bytes := by
  have hlf : ('\n' : Char).toNat < 0x80 := by decide
  have hslash : ('/' : Char).toNat < 0x80 := by decide
  have htail : Lexeme.lineEndTail c (bytewise cs) = (Lexeme.lineEndTail c cs).bytes := by
    unfold Lexeme.lineEndTail
    simp only [head?_bytewise_eq_some_iff hlf]
    apply Cut.take_bytewise
    intro d hd
    split at hd
    · rename_i h
      obtain ⟨rest, rfl⟩ := List.head?_eq_some_iff.1 h.2
      rw [List.mem_singleton.1 hd]
      decide
    · cases hd
  unfold Lexeme.layout?
  simp only [head?_bytewise_eq_some_iff hslash, htail, Cut.takeWhile_bytewise coarse_isBlank,
    lineComment_bytewise]
  split
  · rfl
  · split
    · rfl
    · split <;> rfl

theorem orFault_map_bytes (fault : Fault) (kind : TokenKind) (k? : Option Cut) :
    Lexeme.orFault fault kind (k?.map Cut.bytes)
      = (Lexeme.orFault fault kind k?).map Lexeme.bytes := by
  cases k? <;> rfl

theorem blockCommentTail?_bytewise {cs : List Char} (h : cs.head? = some '*') :
    Lexeme.blockCommentTail? (bytewise cs) = (Lexeme.blockCommentTail? cs).map Cut.bytes := by
  obtain ⟨rest, rfl⟩ := List.head?_eq_some_iff.1 h
  have hstar : ('*' : Char).toNat < 0x80 := by decide
  rw [bytewise_cons_of_lt hstar]
  show (blockComment? 0 (bytewise rest)).map _ = ((blockComment? 0 rest).map _).map _
  rw [blockComment?_bytewise]
  cases blockComment? 0 rest with
  | none => rfl
  | some k =>
    have htext := bytewise_cons_of_lt hstar k.text
    exact congrArg (fun text => some (Cut.mk text (bytewise k.rest))) htext.symm

theorem delimited?_bytewise {c : Char} (hc : c.toNat < 0x80) (cs : List Char) :
    Lexeme.delimited? c (bytewise cs)
      = (Lexeme.delimited? c cs).map fun r => r.map Lexeme.bytes := by
  have hstar : ('*' : Char).toNat < 0x80 := by decide
  unfold Lexeme.delimited?
  simp only [head?_bytewise_eq_some_iff hstar, ← bytewise_cons_of_lt hc, literalHashes?_bytewise,
    escapedName?_bytewise, orFault_map_bytes]
  split
  · rename_i h
    rw [blockCommentTail?_bytewise h.2, orFault_map_bytes]
    rfl
  · split
    · rfl
    · cases hh : Lexeme.literalHashes? (c :: cs) with
      | none => rfl
      | some hashes =>
        dsimp only
        rw [stringLiteral?_bytewise hc hh, orFault_map_bytes]
        rfl

theorem plain_bytewise {c : Char} (hc : c.toNat < 0x80) (cs : List Char) :
    Lexeme.plain c (bytewise cs) = (Lexeme.plain c cs).map Lexeme.bytes := by
  have hkind : Lexeme.wordKind (c :: bytewise (word cs).text)
      = Lexeme.wordKind (c :: (word cs).text) := by
    rw [← bytewise_cons_of_lt hc, wordKind_bytewise]
  have htake : Cut.take 0 (bytewise cs) = (Cut.take 0 cs).bytes := rfl
  unfold Lexeme.plain
  simp only [head?_any_bytewise coarse_isNameStart, word_bytewise, number_bytewise,
    operatorTail_bytewise hc, htake]
  split
  · rfl
  split
  · rfl
  split
  · rfl
  split
  · rfl
  split
  · show Except.ok _ = Except.ok _
    rw [show (word cs).bytes.text = bytewise (word cs).text from rfl, hkind]
    rfl
  split
  · rfl
  · rfl

/-- A character outside ASCII starts a word. -/
theorem next_of_le {c : Char} (h : 0x80 ≤ c.toNat) (cs : List Char) :
    Lexeme.next c cs = .ok ⟨Lexeme.wordKind (c :: (word cs).text), word cs⟩ := by
  have hne : ∀ e : Char, e.toNat < 0x80 → c ≠ e := fun e he => ne_of_le_toNat h he
  have hlayout : Lexeme.layout? c cs = none := by
    have hl : isLineEnd c = false := by
      rw [coarse_isLineEnd c '\u0080' h (by decide)]
      rfl
    have hb : isBlank c = false := by
      rw [coarse_isBlank c '\u0080' h (by decide)]
      rfl
    rw [Lexeme.layout?, hl, hb]
    simp [hne '/' (by decide)]
  have hhash : Lexeme.literalHashes? (c :: cs) = none := by
    have hq : (c == '#') = false := beq_false_of_ne (hne '#' (by decide))
    rw [Lexeme.literalHashes?, List.takeWhile_cons, hq]
    simp [hne '"' (by decide)]
  have hdelimited : Lexeme.delimited? c cs = none := by
    rw [Lexeme.delimited?, hhash]
    simp [hne '/' (by decide), hne '\x60' (by decide)]
  have hdigit : c.isDigit = false := by
    rw [coarse_isDigit c '\u0080' h (by decide)]
    rfl
  rw [Lexeme.next, hlayout, hdelimited]
  simp [Lexeme.plain, hne '(' (by decide), hne '[' (by decide), hne '\x7b' (by decide),
    hne ')' (by decide), hne ']' (by decide), hne '\x7d' (by decide), hne '@' (by decide),
    hne '#' (by decide), hdigit, isNameStart_of_le h]

/-- **The first lexeme of the bytes** of a text is that of the text, in bytes. -/
theorem next_bytewise (c : Char) (cs : List Char) :
    ∃ d ds, byteChars c = d :: ds ∧
      Lexeme.next d (ds ++ bytewise cs)
        = (Lexeme.next c cs).map fun l => ⟨l.kind, l.more.bytes.append ds⟩ := by
  by_cases hc : c.toNat < 0x80
  · refine ⟨c, [], byteChars_of_lt hc, ?_⟩
    show Lexeme.next c (bytewise cs) = (Lexeme.next c cs).map Lexeme.bytes
    unfold Lexeme.next
    rw [layout?_bytewise, delimited?_bytewise hc, plain_bytewise hc]
    cases Lexeme.layout? c cs with
    | some l => rfl
    | none => cases Lexeme.delimited? c cs <;> rfl
  · -- The first byte starts a word as the character does, and the others go on with it.
    have hge := Nat.le_of_not_lt hc
    obtain ⟨d, ds, hd, hdge, hds⟩ := exists_byteChars_eq_cons hge
    have hpart : ∀ e ∈ ds, isNamePart e = true :=
      fun e he => isNamePart_of_isNameStart (isNameStart_of_le (hds e he))
    have hword : word (ds ++ bytewise cs) = (word cs).bytes.append ds := by
      have htake := takeWhile_bytewise coarse_isNamePart cs
      rw [word, Cut.takeWhile, List.takeWhile_append_of_pos hpart,
        List.dropWhile_append_of_pos hpart, htake.1, htake.2]
      rfl
    have hkind : Lexeme.wordKind (d :: (ds ++ bytewise (word cs).text))
        = Lexeme.wordKind (c :: (word cs).text) := by
      rw [← List.cons_append, ← hd, ← bytewise_cons, wordKind_bytewise]
    refine ⟨d, ds, hd, ?_⟩
    rw [next_of_le hdge, next_of_le hge, hword]
    show Except.ok _ = Except.ok _
    rw [show ((word cs).bytes.append ds).text = ds ++ bytewise (word cs).text from rfl, hkind]

theorem lexemes_bytewise (cs : List Char) :
    lexemes (bytewise cs) = (lexemes cs).map (List.map fun l => (l.1, bytewise l.2)) := by
  fun_induction lexemes cs with
  | case1 => exact lexemes_nil
  | case2 c cs fault hn =>
    obtain ⟨d, ds, hd, hnext⟩ := next_bytewise c cs
    rw [hn] at hnext
    rw [bytewise_cons, hd]
    exact lexemes_cons_of_error hnext
  | case3 c cs l hl ih =>
    obtain ⟨d, ds, hd, hnext⟩ := next_bytewise c cs
    rw [hl] at hnext
    have htext : bytewise (l.text c) = d :: (ds ++ bytewise l.more.text) := by
      rw [Lexeme.text, bytewise_cons, hd]
      rfl
    rw [bytewise_cons, hd, List.cons_append, lexemes_cons_of_ok hnext]
    show (lexemes (bytewise l.rest)).map _ = _
    rw [ih]
    cases lexemes l.rest with
    | error fault => rfl
    | ok ls =>
      show Except.ok _ = Except.ok _
      rw [List.map_cons, htext]
      rfl

/-! ### From bytes to tokens -/

/-- The lexemes of a text in bytes, each with its kind and its bytes.  A byte is read as the
    character of its number. -/
def byteLexemes (bs : List UInt8) : Except Fault (List (TokenKind × List UInt8)) :=
  (lexemes (bs.map Char.ofUInt8)).map (List.map fun l => (l.1, l.2.map Char.toUInt8))

/-- The lexemes of the bytes of a text are the bytes of the tokens of the text, or both fail at
    the same fault. -/
theorem byteLexemes_eq_tokenize (source : String) :
    byteLexemes (dropMarkBytes (utf8 source)) = match tokenize source with
      | .error e => .error e.fault
      | .ok ts => .ok (ts.map fun t => (t.kind, utf8 t.text)) := by
  -- The mark goes from the bytes exactly where it goes from the characters.
  have hbytes : (dropMarkBytes (utf8 source)).map Char.ofUInt8
      = bytewise (dropMark source.toList) := by
    rw [utf8_eq_flatMap, dropMarkBytes_flatMap, List.map_flatMap]
    rfl
  rw [byteLexemes, hbytes, lexemes_bytewise, lexemes_eq_tokenizeAt .start, tokenize]
  cases tokenizeAt .start (dropMark source.toList) with
  | error e => rfl
  | ok ts =>
    show Except.ok _ = Except.ok _
    rw [List.map_map, List.map_map]
    congr
    funext t
    show (t.kind, (bytewise t.text.toList).map Char.toUInt8) = (t.kind, utf8 t.text)
    rw [map_toUInt8_bytewise]

/-- No token of a text is empty. -/
theorem text_ne_empty_of_tokenize {source : String} {ts : List Token}
    (h : tokenize source = .ok ts) : ∀ t ∈ ts, t.text ≠ "" := by
  intro t ht hempty
  have hls := ne_nil_of_mem_lexemes (lexemes_of_tokenizeAt h) t.lexeme
    (List.mem_map_of_mem ht)
  apply hls
  show t.text.toList = []
  rw [hempty]
  rfl

/-- **Cutting a text into tokens loses nothing.**  The texts of the tokens make up the text,
    apart from a byte order mark in front of it, and none of them is empty.  The same holds of the
    bytes: cut byte by byte, the text falls into the bytes of the very same tokens, so that no
    boundary lies inside a character. -/
theorem tokenize_lossless {source : String} {ts : List Token} (h : tokenize source = .ok ts) :
    (source.toList.head? = some '\ufeff' → source = "\ufeff" ++ render ts) ∧
    (source.toList.head? ≠ some '\ufeff' → source = render ts) ∧
    (∀ t ∈ ts, t.text ≠ "") ∧
    byteLexemes (dropMarkBytes (utf8 source)) = .ok (ts.map fun t => (t.kind, utf8 t.text)) := by
  have hspell : (render ts).toList = dropMark source.toList := by
    rw [toList_render, spelling_of_tokenize h]
  refine ⟨?_, ?_, text_ne_empty_of_tokenize h, ?_⟩
  · intro hmark
    obtain ⟨cs, hcs⟩ := List.head?_eq_some_iff.1 hmark
    rw [hcs, dropMark, if_pos rfl] at hspell
    apply String.toList_inj.1
    rw [String.toList_append, hspell, hcs]
    rfl
  · intro hmark
    apply String.toList_inj.1
    rw [hspell]
    cases hcs : source.toList with
    | nil => rfl
    | cons c cs =>
      rw [hcs] at hmark
      rw [dropMark, if_neg fun hc => hmark (congrArg some hc)]
  · rw [byteLexemes_eq_tokenize, h]

/-- A marked text whose escape stands before a character of two bytes. -/
theorem tokenize_lossless_escaped_accent :
    tokenize "\ufeffé\"\\é\"" = .ok
        [⟨.identifier, "é", ⟨1, 1⟩⟩, ⟨.stringLiteral, "\"\\é\"", ⟨1, 3⟩⟩] ∧
      "\ufeffé\"\\é\"" = "\ufeff" ++ render
        [⟨.identifier, "é", ⟨1, 1⟩⟩, ⟨.stringLiteral, "\"\\é\"", ⟨1, 3⟩⟩] := by
  have h : tokenize "\ufeffé\"\\é\"" = .ok
      [⟨.identifier, "é", ⟨1, 1⟩⟩, ⟨.stringLiteral, "\"\\é\"", ⟨1, 3⟩⟩] := by
    cbv
  exact ⟨h, (tokenize_lossless h).1 (by decide)⟩

end Kotlinize
