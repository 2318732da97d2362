import Kotlinize.Proofs.Comment.LineComment
import Kotlinize.Proofs.Reread.NextAgain

namespace Kotlinize

/-!
# Words and readable tokens

What a text says is in its words: its lexemes without blanks and line ends, which can be put
between any two of them.  A readable token that is not spacing is one word of a text that starts
with it, as long as the text behind does not go on with it.

* `words` — the lexemes of a text, blanks and line ends apart.
* `Token.isReadable` — whether the text of a token is a lexeme, as the token says.
* `words_of_isReadable`, `runsOn_eq_false_of_words` — a token is the first word of a text exactly
  if it does not run on.
-/

/-! ### Words -/

/-- Whether a lexeme is a run of blanks or a line end. -/
def isSpacingKind (kind : TokenKind) : Bool := kind == .whitespace || kind == .linebreak

/-- What a text says: its lexemes, blanks and line ends apart. -/
def words (cs : List Char) : Except Fault (List (TokenKind × List Char)) :=
  (lexemes cs).map (List.filter fun l => !isSpacingKind l.1)

theorem words_cons_of_spacing {c : Char} {cs : List Char} {l : Lexeme}
    (h : Lexeme.next c cs = .ok l) (hk : isSpacingKind l.kind = true) :
    words (c :: cs) = words l.rest := by
  rw [words, lexemes_cons_of_ok h, words]
  cases lexemes l.rest with
  | error fault => rfl
  | ok ls =>
    show Except.ok _ = Except.ok _
    rw [List.filter_cons, hk]
    rfl

theorem words_cons_of_word {c : Char} {cs : List Char} {l : Lexeme}
    (h : Lexeme.next c cs = .ok l) (hk : isSpacingKind l.kind = false) :
    words (c :: cs) = (words l.rest).map ((l.kind, l.text c) :: ·) := by
  rw [words, lexemes_cons_of_ok h, words]
  cases lexemes l.rest with
  | error fault => rfl
  | ok ls =>
    show Except.ok _ = Except.ok _
    rw [List.filter_cons, hk]
    rfl

/-- Blanks in front of a text have no part in its words. -/
theorem words_dropWhile_isBlank (cs : List Char) : words (cs.dropWhile isBlank) = words cs := by
  cases cs with
  | nil => rfl
  | cons c cs =>
    rw [List.dropWhile_cons]
    by_cases hc : isBlank c = true
    · rw [if_pos hc, words_cons_of_spacing (Reading.blank hc).next_eq rfl]
      rfl
    · rw [if_neg hc]

/-- Neither a blank nor a line end in front of a text has a part in its words. -/
theorem words_spacing {c : Char} (hc : (isBlank c || isLineEnd c) = true) (cs : List Char) :
    words (c :: cs) = words cs := by
  rw [Bool.or_eq_true] at hc
  rcases hc with hc | hc
  · rw [words_cons_of_spacing (Reading.blank hc).next_eq rfl]
    exact words_dropWhile_isBlank cs
  · rw [words_cons_of_spacing (Reading.lineEnd hc).next_eq rfl]
    show words (Lexeme.lineEndTail c cs).rest = words cs
    unfold Lexeme.lineEndTail
    by_cases hlf : c = '\r' ∧ cs.head? = some '\n'
    · -- The line feed behind a carriage return is a line end by itself too.
      rw [if_pos hlf]
      obtain ⟨more, rfl⟩ := List.head?_eq_some_iff.1 hlf.2
      rw [words_cons_of_spacing (Reading.lineEnd (by decide)).next_eq rfl]
      rfl
    · rw [if_neg hlf]
      rfl

theorem words_spacing_append {text : List Char}
    (h : ∀ c ∈ text, (isBlank c || isLineEnd c) = true) (cs : List Char) :
    words (text ++ cs) = words cs := by
  induction text with
  | nil => rfl
  | cons c text ih =>
    rw [List.cons_append, words_spacing (h c List.mem_cons_self)]
    exact ih fun d hd => h d (List.mem_cons_of_mem c hd)

/-! ### Readable tokens -/

/-- Whether a lexeme of one kind can be a token of another: edits also make keywords of words
    that are none. -/
def fitsKind (lexeme token : TokenKind) : Bool :=
  lexeme == token || (lexeme == .identifier && token == .keyword)

/-- Whether the text of a token is what its kind says: blanks or line ends, or a lexeme of the
    kind that is no line comment.  No text may hold a byte order mark. -/
def Token.isReadable (t : Token) : Bool :=
  !t.text.toList.contains '\ufeff' &&
    match t.text.toList with
    | [] => false
    | c :: cs =>
      if t.isSpacing then (c :: cs).all fun d => isBlank d || isLineEnd d
      else match Lexeme.next c cs with
        | .error _ => false
        | .ok l => l.more.text == cs && !isOpenEnded l.kind (l.text c) && fitsKind l.kind t.kind

namespace Token

variable {t : Token}

theorem not_mem_mark_of_isReadable (h : t.isReadable = true) : '\ufeff' ∉ t.text.toList := by
  rw [isReadable, Bool.and_eq_true, Bool.not_eq_true'] at h
  intro hm
  rw [List.contains_iff_mem.2 hm] at h
  cases h.1

theorem ne_nil_of_isReadable (h : t.isReadable = true) : t.text.toList ≠ [] := by
  rw [isReadable, Bool.and_eq_true] at h
  intro ht
  rw [ht] at h
  cases h.2

theorem spacing_of_isReadable (h : t.isReadable = true) (hs : t.isSpacing = true) :
    ∀ c ∈ t.text.toList, (isBlank c || isLineEnd c) = true := by
  rw [isReadable, Bool.and_eq_true] at h
  cases ht : t.text.toList with
  | nil => nofun
  | cons c cs =>
    rw [ht] at h
    have hall := h.2
    simp only at hall
    rw [if_pos hs] at hall
    exact List.all_eq_true.1 hall

/-- The text of a readable token, spacing apart, is a lexeme by itself. -/
theorem word_of_isReadable (h : t.isReadable = true) (hs : t.isSpacing = false) :
    ∃ c l, t.text.toList = l.text c ∧ Lexeme.next c l.more.text = .ok l
      ∧ isOpenEnded l.kind (l.text c) = false ∧ fitsKind l.kind t.kind = true := by
  rw [isReadable, Bool.and_eq_true] at h
  cases ht : t.text.toList with
  | nil => rw [ht] at h; cases h.2
  | cons c cs =>
    rw [ht] at h
    have hword := h.2
    simp only at hword
    rw [hs, if_neg Bool.false_ne_true] at hword
    cases hn : Lexeme.next c cs with
    | error fault => rw [hn] at hword; cases hword
    | ok l =>
      rw [hn] at hword
      simp only [Bool.and_eq_true, Bool.not_eq_true', beq_iff_eq] at hword
      obtain ⟨⟨hmore, hend⟩, hkind⟩ := hword
      refine ⟨c, l, ?_, ?_, hend, hkind⟩
      · rw [Lexeme.text, hmore]
      · rw [hmore]
        exact hn

end Token

/-- Names and keywords go on with the same characters. -/
theorem goesOn_of_fitsKind {kind kind' : TokenKind} (h : fitsKind kind kind' = true)
    (text rest : List Char) : goesOn kind text rest = goesOn kind' text rest := by
  rw [fitsKind, Bool.or_eq_true, Bool.and_eq_true, beq_iff_eq, beq_iff_eq, beq_iff_eq] at h
  rcases h with rfl | ⟨rfl, rfl⟩
  · rfl
  · rfl

theorem runsOn_of_isSpacing {t : Token} (h : t.isSpacing = true) (rest : List Char) :
    t.runsOn rest = false := by
  rw [Token.isSpacing, Bool.or_eq_true, beq_iff_eq, beq_iff_eq] at h
  unfold Token.runsOn
  rcases h with h | h <;> rw [h] <;> rfl

theorem isSpacingKind_of_not_isOpenEnded {kind : TokenKind} {text : List Char}
    (h : isOpenEnded kind text = false) : isSpacingKind kind = false := by
  rw [isOpenEnded, Bool.or_eq_false_iff] at h
  exact h.1

/-- A readable token that does not run on is the first word of its text and the one behind. -/
theorem words_of_isReadable {t : Token} (h : t.isReadable = true) (hs : t.isSpacing = false)
    {rest : List Char} (hrest : t.runsOn rest = false) :
    ∃ kind, fitsKind kind t.kind = true
      ∧ words (t.text.toList ++ rest) = (words rest).map ((kind, t.text.toList) :: ·) := by
  obtain ⟨c, l, ht, hl, hend, hkind⟩ := t.word_of_isReadable h hs
  have hgo : goesOn l.kind (l.text c) rest = false := by
    rw [goesOn_of_fitsKind hkind, ← ht]
    exact hrest
  have hagain := Lexeme.next_again hl hend hgo
  refine ⟨l.kind, hkind, ?_⟩
  rw [ht]
  show words (c :: (l.more.text ++ rest)) = _
  rw [words_cons_of_word hagain (isSpacingKind_of_not_isOpenEnded hend)]
  rfl

/-- Only blanks and line ends start a lexeme that is spacing. -/
theorem isSpacingKind_of_next {c : Char} {cs : List Char} {l : Lexeme}
    (h : Lexeme.next c cs = .ok l) : isSpacingKind l.kind = (isBlank c || isLineEnd c) := by
  by_cases hc : (isBlank c || isLineEnd c) = true
  · rw [hc]
    rw [Bool.or_eq_true] at hc
    rcases hc with hc | hc
    · rw [(Reading.blank hc).next_eq] at h
      cases h
      rfl
    · rw [(Reading.lineEnd hc).next_eq] at h
      cases h
      rfl
  · rw [Bool.not_eq_true] at hc
    rw [hc]
    rw [Bool.or_eq_false_iff] at hc
    -- No other reading has a kind that is spacing.
    have hr := reading_next c cs
    rw [h] at hr
    generalize hl : (Except.ok l : Except Fault Lexeme) = r at hr
    cases hr with
    | lineEnd hle => rw [hc.2] at hle; cases hle
    | blank hbl => rw [hc.1] at hbl; cases hbl
    | blockComment =>
      obtain ⟨k, -, rfl⟩ := eq_of_orFault hl
      rfl
    | escaped =>
      obtain ⟨k, -, rfl⟩ := eq_of_orFault hl
      rfl
    | literal =>
      obtain ⟨k, -, rfl⟩ := eq_of_orFault hl
      rfl
    | word =>
      cases hl
      show isSpacingKind (Lexeme.wordKind (c :: (word cs).text)) = false
      rcases wordKind_eq (c :: (word cs).text) with hk | hk <;> rw [hk] <;> rfl
    | unexpected => cases hl
    | lineComment | opener | closer | directive | number | operator => cases hl; rfl

/-- A readable token that is the first word of its text and the one behind does not run on. -/
theorem runsOn_eq_false_of_words {t : Token} (h : t.isReadable = true) (hs : t.isSpacing = false)
    {rest : List Char} {ws : List (TokenKind × List Char)}
    (hw : words (t.text.toList ++ rest) = .ok ws)
    (ht : (ws.head?.map Prod.snd) = some t.text.toList) :
    t.runsOn rest = false ∧ words rest = .ok ws.tail := by
  obtain ⟨c, l, htext, hl, hend, hkind⟩ := t.word_of_isReadable h hs
  rw [htext] at hw ht
  replace hw : words (c :: (l.more.text ++ rest)) = .ok ws := hw
  -- The first character is that of a word, so a word is read again.
  have hword := isSpacingKind_of_not_isOpenEnded hend
  rw [isSpacingKind_of_next hl] at hword
  cases hn : Lexeme.next c (l.more.text ++ rest) with
  | error fault =>
    rw [words, lexemes_cons_of_error hn] at hw
    cases hw
  | ok l' =>
    rw [words_cons_of_word hn ((isSpacingKind_of_next hn).trans hword)] at hw
    obtain ⟨ws', hws', rfl⟩ := map_eq_ok_iff.1 hw
    have hmore : l'.more.text = l.more.text := by
      have heq : c :: l'.more.text = c :: l.more.text := Option.some.inj ht
      exact (List.cons.inj heq).2
    refine ⟨?_, ?_⟩
    · rw [Token.runsOn, htext, ← goesOn_of_fitsKind hkind]
      exact Lexeme.goesOn_eq_false_of_next hl hn hmore
    · -- Both cuts are of one text, so what is left is the same too.
      have hwhole : l'.more.text ++ l'.rest = l.more.text ++ rest := Lexeme.whole_of_next hn
      rw [hmore, List.append_cancel_left_eq] at hwhole
      rw [← hwhole]
      exact hws'

end Kotlinize
