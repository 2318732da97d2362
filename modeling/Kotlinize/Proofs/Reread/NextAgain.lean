import Kotlinize.Proofs.Reread.LiteralAgain
import Kotlinize.Proofs.Reread.OperatorAgain
import Kotlinize.Proofs.Reread.Reading
import Kotlinize.Proofs.Reread.ScanAgain

namespace Kotlinize

/-!
# Reading a lexeme again

A lexeme that has been read in one text is read again in front of any other text, as long as that
text does not go on with it.  Where the text does go on with it, another lexeme is read, or none.

* `Lexeme.next_again` — what is not gone on with is read again.
* `Lexeme.goesOn_eq_false_of_next` — what is read again is not gone on with.
-/

/-! ### What is not gone on with -/

/-- Whether a lexeme is a blank, a line end or a line comment: those end where something else
    starts, and are not read again as they were. -/
def isOpenEnded (kind : TokenKind) (text : List Char) : Bool :=
  kind == .whitespace || kind == .linebreak || ['/', '/'].isPrefixOf text

theorem wordKind_eq (text : List Char) :
    Lexeme.wordKind text = .keyword ∨ Lexeme.wordKind text = .identifier := by
  unfold Lexeme.wordKind
  split
  · exact Or.inl rfl
  · exact Or.inr rfl

/-- An operator is read again in front of a text that does not go on with it. -/
theorem Reading.operator_again {c : Char} {cs rest : List Char} (hv : isVisible c = true)
    (ho : isOpener c = false) (hcl : isCloser c = false) (hd : c.isDigit = false)
    (hn : isNameStart c = false) (hb : c ≠ '\x60')
    (hlit : Lexeme.literalHashes? (c :: cs) = none)
    (hgo : symbolGoesOn (c :: (operatorTail c cs).text) rest = false) :
    Reading c ((operatorTail c cs).text ++ rest)
      (.ok ⟨.symbol, ⟨(operatorTail c cs).text, rest⟩⟩) := by
  have hr : Reading c ((operatorTail c cs).text ++ rest)
      (.ok ⟨.symbol, operatorTail c ((operatorTail c cs).text ++ rest)⟩) := by
    have hparts := hgo
    simp only [symbolGoesOn, Bool.or_eq_false_iff] at hparts
    obtain ⟨⟨-, hattribute⟩, hhash⟩ := hparts
    refine .operator hv ho hcl hd hn hb ?_ ?_ ?_
    · rintro rfl
      exact head?_ne_of_symbolGoesOn hgo
    · intro hc
      have ht := operatorTail_text_eq_nil (hc.elim Or.inl fun h => Or.inr (Or.inl h)) cs
      rw [ht] at hattribute ⊢
      rcases hc with rfl | rfl <;> exact hattribute
    · by_cases hc : c = '#'
      · subst hc
        have ht := operatorTail_text_eq_nil (Or.inr (Or.inl rfl)) cs
        rw [ht] at hhash ⊢
        have hnone : (Lexeme.literalHashes? ('#' :: rest)).isSome = false := by
          rw [isSome_literalHashes?_cons]
          exact hhash
        simpa using hnone
      · refine literalHashes?_eq_none hc ?_ _
        -- A quote would have started a literal in front of the first text.
        rintro rfl
        cases hlit
  rwa [operatorTail_again rest hgo] at hr

/-- A lexeme that has been read once is read again in front of a text that does not go on
    with it. -/
theorem Lexeme.next_again {c : Char} {cs : List Char} {l : Lexeme}
    (h : Lexeme.next c cs = .ok l) (hend : isOpenEnded l.kind (l.text c) = false)
    {rest : List Char} (hrest : goesOn l.kind (l.text c) rest = false) :
    Lexeme.next c (l.more.text ++ rest) = .ok ⟨l.kind, ⟨l.more.text, rest⟩⟩ := by
  -- It is enough to give the reading of the new text, kind by kind.
  apply Reading.next_eq
  have hr := reading_next c cs
  rw [h] at hr
  generalize hl : (Except.ok l : Except Fault Lexeme) = r at hr
  cases hr with
  | lineEnd => cases hl; cases hend
  | blank => cases hl; cases hend
  | lineComment hc hs =>
    cases hl
    obtain ⟨more, rfl⟩ := List.head?_eq_some_iff.1 hs
    subst hc
    cases hend
  | blockComment hc hs =>
    obtain ⟨k, hk, rfl⟩ := eq_of_orFault hl
    obtain ⟨hs', hk'⟩ := blockCommentTail?_again hs hk rest
    have hr' : Reading c (k.text ++ rest) _ := .blockComment hc hs'
    rwa [hk'] at hr'
  | escaped hc =>
    obtain ⟨k, hk, rfl⟩ := eq_of_orFault hl
    have hr' : Reading c (k.text ++ rest) _ := .escaped hc
    rwa [escapedName?_again hk rest] at hr'
  | literal hashes hh =>
    obtain ⟨k, hk, rfl⟩ := eq_of_orFault hl
    obtain ⟨hh', hk'⟩ := stringLiteral?_again hh hk rest hrest
    have hr' : Reading c (k.text ++ rest) _ := .literal hashes hh'
    rwa [hk'] at hr'
  | opener ho =>
    cases hl
    exact .opener ho
  | closer hcl =>
    cases hl
    exact .closer hcl
  | directive hc hs =>
    cases hl
    have hne : c ≠ '\x60' := by
      rcases hc with rfl | rfl <;> decide
    have hpart : rest.head?.any isNamePart = false := by
      simpa [goesOn, Lexeme.text, hne] using hrest
    have hs' : ((word cs).text ++ rest).head?.any isNameStart = true := by
      rwa [head?_word_append hs]
    have hr' := Reading.directive hc hs'
    rwa [word_again hpart] at hr'
  | number hd =>
    cases hl
    have hzero : numberLength rest = 0 := by simpa [goesOn] using hrest
    have hr' : Reading c ((number cs).text ++ rest) _ := .number hd
    rwa [number_again hzero] at hr'
  | word hn =>
    cases hl
    have hpart : rest.head?.any isNamePart = false := by
      have hne : c ≠ '\x60' := by
        rintro rfl
        exact absurd hn (by decide)
      rcases wordKind_eq (c :: (word cs).text) with hkind | hkind
      all_goals
        rw [hkind] at hrest
        simpa [goesOn, Lexeme.text, hne] using hrest
    have hr' : Reading c ((word cs).text ++ rest) _ := .word hn
    rwa [word_again hpart] at hr'
  | operator hv ho hcl hd hn hb _ _ hlit =>
    cases hl
    exact Reading.operator_again hv ho hcl hd hn hb hlit hrest
  | unexpected => cases hl

/-! ### What is read again -/

/-- What is read in front of some text as an operator, and in front of another one as the same
    characters, is an operator there too. -/
theorem symbolGoesOn_of_reading {c : Char} {cs rest : List Char} {l' : Lexeme}
    (hv : isVisible c = true) (ho : isOpener c = false) (hcl : isCloser c = false)
    (hd : c.isDigit = false) (hn : isNameStart c = false) (hb : c ≠ '\x60')
    (h : Reading c ((operatorTail c cs).text ++ rest) (.ok l'))
    (ht : l'.more.text = (operatorTail c cs).text) :
    symbolGoesOn (c :: (operatorTail c cs).text) rest = false := by
  -- The classes of the first character leave only what starts with a visible one.
  generalize hr : (Except.ok l' : Except Fault Lexeme) = r at h
  cases h with
  | lineEnd h =>
    have hc : c ∉ ['\n', '\r'] := not_mem_of_class hv (by decide)
    simp [isLineEnd] at h hc
    exact absurd h (not_or.2 hc)
  | blank h =>
    have hc : c ∉ [' ', '\t'] := not_mem_of_class hv (by decide)
    simp [isBlank] at h hc
    exact absurd h (not_or.2 hc)
  | lineComment hc h =>
    cases hr
    subst hc
    rcases operatorTail_slash cs with hnil | heq
    · rw [hnil] at h ht
      obtain ⟨more, rfl⟩ := List.head?_eq_some_iff.1 h
      cases ht
    · rw [heq] at h
      cases h
  | blockComment hc h =>
    subst hc
    rcases operatorTail_slash cs with hnil | heq
    · rw [hnil] at h hr ht
      obtain ⟨more, rfl⟩ := List.head?_eq_some_iff.1 h
      obtain ⟨k, hk, rfl⟩ := eq_of_orFault hr
      obtain ⟨k', -, rfl⟩ := Option.map_eq_some_iff.1 hk
      cases ht
    · rw [heq] at h
      cases h
  | escaped hc => exact absurd hc hb
  | literal hashes h =>
    have hnil := operatorTail_text_eq_nil (Or.inr (eq_of_literalHashes? h)) cs
    rw [hnil] at hr ht
    obtain ⟨k, hk, rfl⟩ := eq_of_orFault hr
    replace ht : k.text = [] := ht
    have hlt := lt_length_of_stringLiteral? hk
    rw [ht] at hlt
    exact absurd hlt (Nat.not_lt_zero _)
  | opener h =>
    rw [ho] at h
    cases h
  | closer h =>
    rw [hcl] at h
    cases h
  | directive hc h =>
    cases hr
    have hnil := operatorTail_text_eq_nil (hc.elim Or.inl fun h => Or.inr (Or.inl h)) cs
    rw [hnil] at h ht
    have hhead := head?_word_append h []
    replace ht : (word ([] ++ rest)).text = [] := ht
    rw [ht] at hhead
    rw [← hhead] at h
    cases h
  | number h =>
    rw [hd] at h
    cases h
  | word h =>
    rw [hn] at h
    cases h
  | operator _ _ _ _ _ _ hs' ha' hl' =>
    cases hr
    exact symbolGoesOn_eq_false ht hs' ha' hl'
  | unexpected => cases hr

/-- A literal of two quotes that is read again in front of a text has no third quote there:
    three quotes are the start of a longer literal. -/
theorem literal_of_next {hashes : Nat} {c : Char} {cs rest : List Char} {k : Cut} {l' : Lexeme}
    (hk : stringLiteral? hashes c cs = some k) (h' : Lexeme.next c (k.text ++ rest) = .ok l')
    (ht : l'.more.text = k.text) : goesOn .stringLiteral (c :: k.text) rest = false := by
  show ((c :: k.text) == ['"', '"'] && rest.head?.any (· == '"')) = false
  rw [Bool.eq_false_iff]
  intro hgo
  rw [Bool.and_eq_true, beq_iff_eq] at hgo
  obtain ⟨rfl, htext⟩ := List.cons.inj hgo.1
  cases rest with
  | nil => cases hgo.2
  | cons d rest =>
    obtain rfl : d = '"' := beq_iff_eq.1 hgo.2
    rw [htext] at h' ht
    have hthree : Reading '"' ('"' :: '"' :: rest) _ := .literal 0 rfl
    obtain ⟨k', hk', rfl⟩ := eq_of_orFault (hthree.eq_ok h').symm
    exact ne_of_stringLiteral?_quotes hk' ht

/-- Where a lexeme is read as it was before, the text behind it does not go on with it. -/
theorem Lexeme.goesOn_eq_false_of_next {c : Char} {cs : List Char} {l l' : Lexeme}
    (h : Lexeme.next c cs = .ok l) {rest : List Char}
    (h' : Lexeme.next c (l.more.text ++ rest) = .ok l') (ht : l'.more.text = l.more.text) :
    goesOn l.kind (l.text c) rest = false := by
  have hr := reading_next c cs
  rw [h] at hr
  generalize hl : (Except.ok l : Except Fault Lexeme) = r at hr
  cases hr with
  | lineEnd => cases hl; rfl
  | blank => cases hl; rfl
  | lineComment => cases hl; rfl
  | blockComment =>
    obtain ⟨k, -, rfl⟩ := eq_of_orFault hl
    rfl
  | escaped hc =>
    obtain ⟨k, -, rfl⟩ := eq_of_orFault hl
    subst hc
    rfl
  | literal hashes hh =>
    obtain ⟨k, hk, rfl⟩ := eq_of_orFault hl
    exact literal_of_next hk h' ht
  | opener => cases hl; rfl
  | closer => cases hl; rfl
  | directive hc hs =>
    cases hl
    have hs' : ((word cs).text ++ rest).head?.any isNameStart = true := by
      rwa [head?_word_append hs]
    cases (Reading.directive hc hs').eq_ok h'
    show ((c :: (word cs).text).head? != some '\x60' && rest.head?.any isNamePart) = false
    rw [head?_of_word_eq ht, Bool.and_false]
  | number hd =>
    cases hl
    cases (Reading.number hd).eq_ok h'
    have hlen : (number ((number cs).text ++ rest)).text.length = (number cs).text.length :=
      congrArg List.length ht
    have hagain : numberLength ((number cs).text ++ rest) = numberLength cs + numberLength rest :=
      numberLength_again cs rest
    rw [length_number_text, length_number_text, hagain] at hlen
    have hzero : numberLength rest = 0 := by omega
    show (numberLength rest != 0) = false
    rw [hzero]
    rfl
  | word hn =>
    cases hl
    cases (Reading.word hn).eq_ok h'
    have hend := head?_of_word_eq ht
    show goesOn (wordKind (c :: (word cs).text)) (c :: (word cs).text) rest = false
    rcases wordKind_eq (c :: (word cs).text) with hkind | hkind
    all_goals
      rw [hkind]
      show ((c :: (word cs).text).head? != some '\x60' && rest.head?.any isNamePart) = false
      rw [hend, Bool.and_false]
  | operator hv ho hcl hd hn hb hs ha hlit =>
    cases hl
    replace h' : next c ((operatorTail c cs).text ++ rest) = .ok l' := h'
    exact symbolGoesOn_of_reading hv ho hcl hd hn hb (h' ▸ reading_next c _) ht
  | unexpected => cases hl

/-- What stands behind a lexeme does not go on with it. -/
theorem Lexeme.goesOn_rest {c : Char} {cs : List Char} {l : Lexeme}
    (h : Lexeme.next c cs = .ok l) : goesOn l.kind (l.text c) l.rest = false := by
  have hagain : Lexeme.next c (l.more.text ++ l.rest) = .ok l := by
    rw [show l.more.text ++ l.rest = cs from Lexeme.whole_of_next h]
    exact h
  exact Lexeme.goesOn_eq_false_of_next h hagain rfl

end Kotlinize
