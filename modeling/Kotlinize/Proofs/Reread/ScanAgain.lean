import Kotlinize.Proofs.Lexemes

namespace Kotlinize

/-!
# Reading again what a scanner has taken

What a scanner has taken from one text it takes again in front of any other text.  A word or a
number may be longer there, and how the other text starts tells whether it is.

* `word_again`, `number_again` — words and numbers that the text behind does not lengthen.
* `head?_of_word_eq` — a word that is no longer than before is not lengthened.
* `escapedName?_again`, `blockComment?_again` — what stands between marks ends where it did.
-/

/-! ### Words and numbers -/

theorem Cut.takeWhile_again (p : Char → Bool) (cs rest : List Char) :
    Cut.takeWhile p ((Cut.takeWhile p cs).text ++ rest)
      = ⟨(Cut.takeWhile p cs).text ++ rest.takeWhile p, rest.dropWhile p⟩ := by
  have hall : ∀ c ∈ cs.takeWhile p, p c = true := List.all_eq_true.1 List.all_takeWhile
  show (⟨(cs.takeWhile p ++ rest).takeWhile p, (cs.takeWhile p ++ rest).dropWhile p⟩ : Cut) = _
  rw [List.takeWhile_append_of_pos hall, List.dropWhile_append_of_pos hall]
  rfl

theorem word_again {cs rest : List Char} (h : rest.head?.any isNamePart = false) :
    word ((word cs).text ++ rest) = ⟨(word cs).text, rest⟩ := by
  have hagain := Cut.takeWhile_again isNamePart cs rest
  cases rest with
  | nil =>
    rw [List.takeWhile_nil, List.dropWhile_nil, List.append_nil] at hagain
    rwa [List.append_nil]
  | cons d rest =>
    have hd : isNamePart d = false := h
    rw [List.takeWhile_cons, List.dropWhile_cons, hd, if_neg Bool.false_ne_true,
      if_neg Bool.false_ne_true, List.append_nil] at hagain
    exact hagain

/-- A word that starts a text starts it with the same character in front of any other text. -/
theorem head?_word_append {cs : List Char} (h : cs.head?.any isNameStart = true)
    (rest : List Char) : ((word cs).text ++ rest).head? = cs.head? := by
  cases cs with
  | nil => cases h
  | cons d cs =>
    have hd : isNameStart d = true := h
    show (List.takeWhile isNamePart (d :: cs) ++ rest).head? = some d
    rw [List.takeWhile_cons, if_pos (isNamePart_of_isNameStart hd)]
    rfl

/-- A word that is read in front of a text as it was before ends there. -/
theorem head?_of_word_eq {cs rest : List Char}
    (h : (word ((word cs).text ++ rest)).text = (word cs).text) :
    rest.head?.any isNamePart = false := by
  have hagain := Cut.takeWhile_again isNamePart cs rest
  have htext : (word cs).text ++ rest.takeWhile isNamePart = (word cs).text :=
    (congrArg Cut.text hagain).symm.trans h
  have hnil : rest.takeWhile isNamePart = [] := List.append_right_eq_self.1 htext
  cases rest with
  | nil => rfl
  | cons d rest =>
    show isNamePart d = false
    rw [Bool.eq_false_iff]
    intro hd
    rw [List.takeWhile_cons, if_pos hd] at hnil
    cases hnil

theorem numberLength_again (cs rest : List Char) :
    numberLength (cs.take (numberLength cs) ++ rest) = numberLength cs + numberLength rest := by
  induction cs with
  | nil =>
    rw [numberLength, Nat.zero_add]
    rfl
  | cons c cs ih =>
    rw [numberLength]
    split
    · rename_i h
      rw [List.take_succ_cons, List.cons_append, numberLength]
      have h' : (isNumberPart c
          || (c == '.' && (cs.take (numberLength cs) ++ rest).head?.any Char.isDigit)) = true := by
        rw [Bool.or_eq_true, Bool.and_eq_true] at h ⊢
        refine h.imp id fun h => ⟨h.1, ?_⟩
        -- The digit behind a point belongs to the number.
        cases cs with
        | nil => cases h.2
        | cons d cs =>
          have hd : isNumberPart d = true := by
            have hdigit : d.isDigit = true := h.2
            simp [isNumberPart, Char.isAlphanum, hdigit]
          rw [numberLength, hd, Bool.true_or, if_pos rfl, List.take_succ_cons]
          exact h.2
      rw [if_pos h', ih]
      omega
    · rw [List.take_zero, List.nil_append, Nat.zero_add]

theorem numberLength_le_length (cs : List Char) : numberLength cs ≤ cs.length := by
  induction cs with
  | nil => exact Nat.le_refl 0
  | cons c cs ih =>
    rw [numberLength, List.length_cons]
    split <;> omega

theorem length_number_text (cs : List Char) : (number cs).text.length = numberLength cs := by
  show (cs.take (numberLength cs)).length = numberLength cs
  rw [List.length_take, Nat.min_eq_left (numberLength_le_length cs)]

theorem number_again {cs rest : List Char} (h : numberLength rest = 0) :
    number ((number cs).text ++ rest) = ⟨(number cs).text, rest⟩ := by
  have hlen : numberLength ((number cs).text ++ rest) = (number cs).text.length := by
    rw [length_number_text, ← Nat.add_zero (numberLength cs), ← h]
    exact numberLength_again cs rest
  show Cut.take (numberLength ((number cs).text ++ rest)) ((number cs).text ++ rest) = _
  rw [hlen, Cut.take, List.take_left, List.drop_left]

/-! ### Names in backticks and block comments -/

theorem escapedName?_again {cs : List Char} {k : Cut} (h : escapedName? cs = some k)
    (rest : List Char) : escapedName? (k.text ++ rest) = some ⟨k.text, rest⟩ := by
  induction cs generalizing k with
  | nil => cases h
  | cons c cs ih =>
    rw [escapedName?] at h
    split at h
    · rename_i hc
      cases h
      rw [List.singleton_append, escapedName?, if_pos hc]
    · rename_i hc
      split at h
      · cases h
      · rename_i hl
        obtain ⟨k', hk', rfl⟩ := Option.map_eq_some_iff.1 h
        show escapedName? (c :: (k'.text ++ rest)) = _
        rw [escapedName?, if_neg hc, if_neg hl, ih hk']
        rfl

theorem blockComment?_text_ne_nil {depth : Nat} {cs : List Char} {k : Cut}
    (h : blockComment? depth cs = some k) : k.text ≠ [] := by
  fun_induction blockComment? depth cs generalizing k with
  | case1 _ _ _ | case3 _ _ _ _ =>
    obtain ⟨k', -, rfl⟩ := Option.map_eq_some_iff.1 h
    exact List.cons_ne_nil _ _
  | case2 =>
    cases h
    exact List.cons_ne_nil _ _
  | case4 _ _ _ _ _ _ =>
    obtain ⟨k', -, rfl⟩ := Option.map_eq_some_iff.1 h
    exact List.cons_ne_nil _ _
  | case5 => cases h

/-- The first character of a text is that of what is taken of it, if anything is. -/
theorem Cut.head?_append_of_whole {k : Cut} {cs : List Char} (hw : k.whole = cs)
    (hne : k.text ≠ []) (rest : List Char) : (k.text ++ rest).head? = cs.head? := by
  obtain ⟨c, text, ht⟩ := List.exists_cons_of_ne_nil hne
  rw [← hw, Cut.whole, ht]
  rfl

theorem blockComment?_again {depth : Nat} {cs : List Char} {k : Cut}
    (h : blockComment? depth cs = some k) (rest : List Char) :
    blockComment? depth (k.text ++ rest) = some ⟨k.text, rest⟩ := by
  fun_induction blockComment? depth cs generalizing k with
  | case1 depth cs ih =>
    obtain ⟨k₁, hk₁, rfl⟩ := Option.map_eq_some_iff.1 h
    obtain ⟨k₂, hk₂, rfl⟩ := Option.map_eq_some_iff.1 hk₁
    show blockComment? depth ('/' :: '*' :: (k₂.text ++ rest)) = _
    rw [blockComment?, ih hk₂]
    rfl
  | case2 cs =>
    cases h
    rfl
  | case3 depth cs hd ih =>
    obtain ⟨k₁, hk₁, rfl⟩ := Option.map_eq_some_iff.1 h
    obtain ⟨k₂, hk₂, rfl⟩ := Option.map_eq_some_iff.1 hk₁
    show blockComment? depth ('*' :: '/' :: (k₂.text ++ rest)) = _
    rw [blockComment?, if_neg hd, ih hk₂]
    rfl
  | case4 depth c cs hopen hclose ih =>
    obtain ⟨k', hk', rfl⟩ := Option.map_eq_some_iff.1 h
    -- The comment goes on, so the character behind this one is part of it.
    have hhead := Cut.head?_append_of_whole (whole_of_blockComment? hk')
      (blockComment?_text_ne_nil hk') rest
    show blockComment? depth (c :: (k'.text ++ rest)) = _
    rw [blockComment?_cons, ih hk']
    · rfl
    · rintro ⟨rfl, hs⟩
      rw [hhead] at hs
      obtain ⟨more, hmore⟩ := List.head?_eq_some_iff.1 hs
      exact hopen more rfl hmore
    · rintro ⟨rfl, hs⟩
      rw [hhead] at hs
      obtain ⟨more, hmore⟩ := List.head?_eq_some_iff.1 hs
      exact hclose more rfl hmore
  | case5 => cases h

theorem blockCommentTail?_again {cs : List Char} {k : Cut} (hs : cs.head? = some '*')
    (h : Lexeme.blockCommentTail? cs = some k) (rest : List Char) :
    (k.text ++ rest).head? = some '*'
      ∧ Lexeme.blockCommentTail? (k.text ++ rest) = some ⟨k.text, rest⟩ := by
  obtain ⟨more, rfl⟩ := List.head?_eq_some_iff.1 hs
  obtain ⟨k', hk', rfl⟩ := Option.map_eq_some_iff.1 h
  refine ⟨rfl, ?_⟩
  show (blockComment? 0 (k'.text ++ rest)).map _ = _
  rw [blockComment?_again hk']
  rfl

end Kotlinize
