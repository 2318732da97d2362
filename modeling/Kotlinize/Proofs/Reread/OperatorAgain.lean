import Kotlinize.Proofs.Reread.RunsOn

namespace Kotlinize

/-!
# Reading an operator again

An operator is the longest of a list that a text starts with, and any other visible character is
one by itself.  Both are cut again in front of a text that does not make them a longer operator, a
comment, an attribute or a literal.

* `operatorTail_eq`, `length_le_operatorTail` — what is cut, and that nothing longer could be.
* `operatorTail_again` — an operator that the text does not go on with is cut again.
* `symbolGoesOn_eq_false` — an operator that is cut again is not gone on with.
-/

/-! ### What is cut -/

/-- Every operator of the list has more than one character. -/
theorem two_le_length_of_mem_operators {op : List Char} (h : op ∈ operators) : 2 ≤ op.length := by
  have hall : (operators.all fun op => decide (2 ≤ op.length)) = true := by decide
  exact of_decide_eq_true (List.all_eq_true.1 hall op h)

/-- An operator of the list is found as a whole, any other character by itself. -/
theorem operatorTail_eq (c : Char) (cs : List Char) :
    (∃ op more, operators.find? (·.isPrefixOf (c :: cs)) = some (c :: op) ∧ op ++ more = cs
        ∧ operatorTail c cs = ⟨op, more⟩)
      ∨ operators.find? (·.isPrefixOf (c :: cs)) = none ∧ operatorTail c cs = ⟨[], cs⟩ := by
  unfold operatorTail
  cases hf : operators.find? (·.isPrefixOf (c :: cs)) with
  | none => exact Or.inr ⟨rfl, rfl⟩
  | some op =>
    have hpre : op <+: c :: cs := List.isPrefixOf_iff_prefix.1
      (List.find?_some (p := fun op : List Char => op.isPrefixOf (c :: cs)) hf)
    have hlen := two_le_length_of_mem_operators (List.mem_of_find?_eq_some hf)
    obtain ⟨more, hmore⟩ := hpre
    cases op with
    | nil => exact absurd hlen (by decide)
    | cons o op =>
      obtain ⟨rfl, hrest⟩ := List.cons.inj hmore
      replace hrest : op ++ more = cs := hrest
      refine Or.inl ⟨op, more, rfl, hrest, ?_⟩
      show Cut.take op.length cs = ⟨op, more⟩
      rw [← hrest, Cut.take, List.take_left, List.drop_left]

/-- The longest of the operators that a text starts with is read. -/
theorem length_le_operatorTail {c : Char} {cs op : List Char} (hop : op ∈ operators)
    (hpre : op <+: c :: cs) : op.length ≤ (operatorTail c cs).text.length + 1 := by
  have hsorted : operators.Pairwise fun a b => b.length ≤ a.length := by decide
  rcases operatorTail_eq c cs with ⟨found, more, hf, -, ht⟩ | ⟨hf, -⟩
  · rw [ht]
    show op.length ≤ (c :: found).length
    obtain ⟨-, before, after, hsplit, hbefore⟩ := List.find?_eq_some_iff_append.1 hf
    rw [hsplit] at hop hsorted
    -- The list is sorted by length, and the first match is taken.
    rcases List.mem_append.1 hop with hmem | hmem
    · have hno := hbefore op hmem
      rw [List.isPrefixOf_iff_prefix.2 hpre] at hno
      cases hno
    · rcases List.mem_cons.1 hmem with rfl | hmem
      · exact Nat.le_refl _
      · exact (List.pairwise_cons.1 (List.pairwise_append.1 hsorted).2.1).1 op hmem
  · exact absurd (List.isPrefixOf_iff_prefix.2 hpre) (List.find?_eq_none.1 hf op hop)

/-- No operator starts with the mark of an attribute, of a directive or of a literal. -/
theorem operatorTail_text_eq_nil {c : Char} (hc : c = '@' ∨ c = '#' ∨ c = '"') (cs : List Char) :
    (operatorTail c cs).text = [] := by
  rcases operatorTail_eq c cs with ⟨op, more, hf, -, -⟩ | ⟨-, ht⟩
  · have hmem := List.mem_of_find?_eq_some hf
    have hall : (operators.all fun op => op.head?.all fun d => d != '@' && d != '#' && d != '"')
        = true := by decide
    have hop : (c != '@' && c != '#' && c != '"') = true := List.all_eq_true.1 hall _ hmem
    rcases hc with rfl | rfl | rfl <;> cases hop
  · rw [ht]

/-- The only operator of more than one character that starts with a slash. -/
theorem operatorTail_slash (cs : List Char) :
    (operatorTail '/' cs).text = [] ∨ (operatorTail '/' cs).text = ['='] := by
  rcases operatorTail_eq '/' cs with ⟨op, more, hf, -, ht⟩ | ⟨-, ht⟩
  · right
    have hmem := List.mem_of_find?_eq_some hf
    have hall : (operators.all fun op => op.head? != some '/' || op == ['/', '=']) = true := by
      decide
    have hop : (('/' :: op) == ['/', '=']) = true := List.all_eq_true.1 hall _ hmem
    rw [ht]
    exact (List.cons.inj (beq_iff_eq.1 hop)).2
  · left
    rw [ht]

/-! ### What is not gone on with -/

theorem not_goesOn_operator {text rest op : List Char} (h : symbolGoesOn text rest = false)
    (hop : op ∈ operators) (hlen : text.length < op.length) : ¬ op <+: text ++ rest := by
  intro hpre
  simp only [symbolGoesOn, Bool.or_eq_false_iff] at h
  have hnot := List.any_eq_false.1 h.1.1.1 op hop
  rw [decide_eq_true hlen, List.isPrefixOf_iff_prefix.2 hpre] at hnot
  exact hnot rfl

theorem operatorTail_again {c : Char} {cs : List Char} (rest : List Char)
    (h : symbolGoesOn (c :: (operatorTail c cs).text) rest = false) :
    operatorTail c ((operatorTail c cs).text ++ rest) = ⟨(operatorTail c cs).text, rest⟩ := by
  rcases operatorTail_eq c cs with ⟨op, more, hf, rfl, ht⟩ | ⟨hf, ht⟩
  · rw [ht] at h ⊢
    show operatorTail c (op ++ rest) = ⟨op, rest⟩
    have hfind : operators.find? (·.isPrefixOf (c :: (op ++ rest))) = some (c :: op) := by
      obtain ⟨-, before, after, hsplit, hbefore⟩ := List.find?_eq_some_iff_append.1 hf
      rw [List.find?_eq_some_iff_append]
      refine ⟨List.isPrefixOf_iff_prefix.2 (List.prefix_append (c :: op) rest), before, after,
        hsplit, ?_⟩
      -- None of the operators before it in the list starts the new text.
      intro op' hop'
      have hmem : op' ∈ operators := by
        rw [hsplit]
        exact List.mem_append_left _ hop'
      rw [Bool.not_eq_true', Bool.eq_false_iff, Ne, List.isPrefixOf_iff_prefix]
      intro hpre
      by_cases hlen : (c :: op).length < op'.length
      · exact not_goesOn_operator h hmem hlen hpre
      · -- A shorter one stood in front of the first text too.
        have hshort : op' <+: c :: op := List.prefix_of_prefix_length_le hpre
          (List.prefix_append (c :: op) rest) (Nat.le_of_not_lt hlen)
        have hlong : op' <+: c :: (op ++ more) := hshort.trans (List.prefix_append (c :: op) more)
        have hno := hbefore op' hop'
        rw [List.isPrefixOf_iff_prefix.2 hlong] at hno
        cases hno
    unfold operatorTail
    rw [hfind]
    show Cut.take op.length (op ++ rest) = ⟨op, rest⟩
    rw [Cut.take, List.take_left, List.drop_left]
  · rw [ht] at h ⊢
    show operatorTail c rest = ⟨[], rest⟩
    have hfind : operators.find? (·.isPrefixOf (c :: rest)) = none := by
      rw [List.find?_eq_none]
      intro op hop hpre
      exact not_goesOn_operator h hop (two_le_length_of_mem_operators hop)
        (List.isPrefixOf_iff_prefix.1 hpre)
    unfold operatorTail
    rw [hfind]
    rfl

/-- No comment starts where a slash stands in front of a text that does not go on with it. -/
theorem head?_ne_of_symbolGoesOn {cs rest : List Char}
    (h : symbolGoesOn ('/' :: (operatorTail '/' cs).text) rest = false) :
    ((operatorTail '/' cs).text ++ rest).head? ≠ some '/'
      ∧ ((operatorTail '/' cs).text ++ rest).head? ≠ some '*' := by
  simp only [symbolGoesOn, Bool.or_eq_false_iff] at h
  have hcomment := h.1.1.2
  rcases operatorTail_slash cs with ht | ht
  · rw [ht] at hcomment ⊢
    cases rest with
    | nil => exact ⟨nofun, nofun⟩
    | cons d rest =>
      have hd : (d == '/' || d == '*') = false := hcomment
      rw [Bool.or_eq_false_iff, beq_eq_false_iff_ne, beq_eq_false_iff_ne] at hd
      exact ⟨fun heq => hd.1 (Option.some.inj heq), fun heq => hd.2 (Option.some.inj heq)⟩
  · rw [ht]
    exact ⟨nofun, nofun⟩

/-! ### What is cut again -/

/-- An operator that is read in front of a text as an operator does not go on with it. -/
theorem symbolGoesOn_eq_false {c : Char} {text rest : List Char}
    (ht : (operatorTail c (text ++ rest)).text = text)
    (hs : c = '/' → (text ++ rest).head? ≠ some '/' ∧ (text ++ rest).head? ≠ some '*')
    (ha : c = '@' ∨ c = '#' → (text ++ rest).head?.any isNameStart = false)
    (hl : Lexeme.literalHashes? (c :: (text ++ rest)) = none) :
    symbolGoesOn (c :: text) rest = false := by
  have hsingle : ∀ d : Char, ((c :: text) == [d]) = true → c = d ∧ text = [] := by
    intro d hd
    exact List.cons.inj (beq_iff_eq.1 hd)
  simp only [symbolGoesOn, Bool.or_eq_false_iff]
  -- Each of the four tests would have led to another cut or another lexeme.
  refine ⟨⟨⟨?_, ?_⟩, ?_⟩, ?_⟩
  · rw [List.any_eq_false]
    intro op hop hgo
    rw [Bool.and_eq_true, decide_eq_true_eq, List.isPrefixOf_iff_prefix] at hgo
    have hpre : op <+: c :: (text ++ rest) := hgo.2
    have hle := length_le_operatorTail hop hpre
    rw [ht] at hle
    exact absurd hgo.1 (Nat.not_lt_of_le hle)
  · rw [Bool.eq_false_iff]
    intro hgo
    rw [Bool.and_eq_true] at hgo
    obtain ⟨rfl, rfl⟩ := hsingle '/' hgo.1
    cases rest with
    | nil => cases hgo.2
    | cons d rest =>
      have hd : (d == '/' || d == '*') = true := hgo.2
      rw [Bool.or_eq_true, beq_iff_eq, beq_iff_eq] at hd
      rcases hd with rfl | rfl
      · exact (hs rfl).1 rfl
      · exact (hs rfl).2 rfl
  · rw [Bool.eq_false_iff]
    intro hgo
    rw [Bool.and_eq_true, Bool.or_eq_true] at hgo
    rcases hgo.1 with hc | hc
    · obtain ⟨rfl, rfl⟩ := hsingle '@' hc
      exact Bool.eq_false_iff.1 (ha (Or.inl rfl)) hgo.2
    · obtain ⟨rfl, rfl⟩ := hsingle '#' hc
      exact Bool.eq_false_iff.1 (ha (Or.inr rfl)) hgo.2
  · rw [Bool.eq_false_iff]
    intro hgo
    rw [Bool.and_eq_true] at hgo
    obtain ⟨rfl, rfl⟩ := hsingle '#' hgo.1
    replace hl : Lexeme.literalHashes? ('#' :: rest) = none := hl
    have hsome := isSome_literalHashes?_cons '#' rest
    rw [hl] at hsome
    replace hsome : false = (Lexeme.literalHashes? rest).isSome := hsome
    rw [← hsome] at hgo
    cases hgo.2

end Kotlinize
