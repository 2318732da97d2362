import Kotlinize.Source.Lexeme
import Mathlib

namespace Kotlinize

/-!
# The kinds of lexemes

The first character of a text, sometimes with the one behind it, tells what kind of lexeme the
text starts with.  This file states the choice once, case by case, and proves that it is the
choice that `Lexeme.next` makes; nothing else has to open the nested tests.

* `Reading c cs r` — the text `c :: cs` is read with the result `r`.
* `reading_next`, `Reading.next_eq` — a text has this one reading.
-/

open Lexeme

/-- The brackets that open. -/
def isOpener (c : Char) : Bool := c == '(' || c == '[' || c == '\x7b'

/-- The brackets that close. -/
def isCloser (c : Char) : Bool := c == ')' || c == ']' || c == '\x7d'

/-- A lexeme that may lack its end is read where the end is found. -/
theorem eq_of_orFault {fault : Fault} {kind : TokenKind} {k? : Option Cut} {l : Lexeme}
    (h : .ok l = orFault fault kind k?) : ∃ k, k? = some k ∧ l = ⟨kind, k⟩ := by
  cases k? with
  | none => cases h
  | some k =>
    cases h
    exact ⟨k, rfl, rfl⟩

/-- The result of reading a text that starts with `c`. -/
inductive Reading (c : Char) (cs : List Char) : Except Fault Lexeme → Prop where
  | lineEnd (h : isLineEnd c = true) : Reading c cs (.ok ⟨.linebreak, lineEndTail c cs⟩)
  | blank (h : isBlank c = true) : Reading c cs (.ok ⟨.whitespace, Cut.takeWhile isBlank cs⟩)
  | lineComment (hc : c = '/') (h : cs.head? = some '/') :
      Reading c cs (.ok ⟨.comment, Kotlinize.lineComment cs⟩)
  | blockComment (hc : c = '/') (h : cs.head? = some '*') :
      Reading c cs (orFault .unterminatedComment .comment (blockCommentTail? cs))
  | escaped (hc : c = '\x60') :
      Reading c cs (orFault (.unexpectedCharacter c) .identifier (escapedName? cs))
  | literal (hashes : Nat) (h : literalHashes? (c :: cs) = some hashes) :
      Reading c cs (orFault .unterminatedString .stringLiteral (stringLiteral? hashes c cs))
  | opener (h : isOpener c = true) : Reading c cs (.ok ⟨.startOfScope, ⟨[], cs⟩⟩)
  | closer (h : isCloser c = true) : Reading c cs (.ok ⟨.endOfScope, ⟨[], cs⟩⟩)
  | directive (hc : c = '@' ∨ c = '#') (h : cs.head?.any isNameStart = true) :
      Reading c cs (.ok ⟨.keyword, Kotlinize.word cs⟩)
  | number (h : c.isDigit = true) : Reading c cs (.ok ⟨.number, Kotlinize.number cs⟩)
  | word (h : isNameStart c = true) :
      Reading c cs (.ok ⟨wordKind (c :: (Kotlinize.word cs).text), Kotlinize.word cs⟩)
  | operator (hv : isVisible c = true) (ho : isOpener c = false) (hcl : isCloser c = false)
      (hd : c.isDigit = false) (hn : isNameStart c = false) (hb : c ≠ '\x60')
      (hs : c = '/' → cs.head? ≠ some '/' ∧ cs.head? ≠ some '*')
      (ha : c = '@' ∨ c = '#' → cs.head?.any isNameStart = false)
      (hl : literalHashes? (c :: cs) = none) : Reading c cs (.ok ⟨.symbol, operatorTail c cs⟩)
  | unexpected (hl : isLineEnd c = false) (hw : isBlank c = false) (hv : isVisible c = false)
      (hn : isNameStart c = false) : Reading c cs (.error (.unexpectedCharacter c))

/-- A literal starts with a hash or a quote. -/
theorem eq_of_literalHashes? {c : Char} {cs : List Char} {hashes : Nat}
    (h : literalHashes? (c :: cs) = some hashes) : c = '#' ∨ c = '"' := by
  by_cases hc : c = '#'
  · exact Or.inl hc
  · right
    unfold literalHashes? at h
    rw [List.takeWhile_cons, beq_false_of_ne hc] at h
    by_cases hq : c = '"'
    · exact hq
    · have hne : some c ≠ some '"' := fun heq => hq (Option.some.inj heq)
      rw [show (if false = true then c :: cs.takeWhile (· == '#') else []) = [] from rfl] at h
      dsimp only at h
      rw [List.length_nil, List.drop_zero, List.head?_cons, if_neg hne] at h
      cases h

/-- Every text has a reading: that of its first lexeme. -/
theorem reading_next (c : Char) (cs : List Char) : Reading c cs (next c cs) := by
  unfold next layout?
  -- The tests in the order of the definition, each under the failure of those before it.
  by_cases hle : isLineEnd c = true
  · rw [if_pos hle]
    exact .lineEnd hle
  rw [if_neg hle]
  by_cases hbl : isBlank c = true
  · rw [if_pos hbl]
    exact .blank hbl
  rw [if_neg hbl]
  by_cases hlc : c = '/' ∧ cs.head? = some '/'
  · rw [if_pos hlc]
    exact .lineComment hlc.1 hlc.2
  rw [if_neg hlc]
  show Reading c cs ((delimited? c cs).getD (plain c cs))
  unfold delimited?
  by_cases hbc : c = '/' ∧ cs.head? = some '*'
  · rw [if_pos hbc]
    exact .blockComment hbc.1 hbc.2
  rw [if_neg hbc]
  by_cases hbt : c = '\x60'
  · rw [if_pos hbt]
    exact .escaped hbt
  rw [if_neg hbt]
  cases hl : literalHashes? (c :: cs) with
  | some hashes => exact .literal hashes hl
  | none =>
    show Reading c cs (plain c cs)
    unfold plain
    by_cases ho : c = '(' ∨ c = '[' ∨ c = '\x7b'
    · rw [if_pos ho]
      refine .opener ?_
      rcases ho with rfl | rfl | rfl <;> rfl
    rw [if_neg ho]
    by_cases hcl : c = ')' ∨ c = ']' ∨ c = '\x7d'
    · rw [if_pos hcl]
      refine .closer ?_
      rcases hcl with rfl | rfl | rfl <;> rfl
    rw [if_neg hcl]
    by_cases hat : (c = '@' ∨ c = '#') ∧ cs.head?.any isNameStart = true
    · rw [if_pos hat]
      exact .directive hat.1 hat.2
    rw [if_neg hat]
    by_cases hd : c.isDigit = true
    · rw [if_pos hd]
      exact .number hd
    rw [if_neg hd]
    by_cases hn : isNameStart c = true
    · rw [if_pos hn]
      exact .word hn
    rw [if_neg hn]
    rw [Bool.not_eq_true] at hle hbl hd hn
    by_cases hv : isVisible c = true
    · rw [if_pos hv]
      refine .operator hv ?_ ?_ hd hn hbt ?_ ?_ hl
      · simpa [isOpener, and_assoc] using ho
      · simpa [isCloser, and_assoc] using hcl
      · intro hc
        exact ⟨fun h => hlc ⟨hc, h⟩, fun h => hbc ⟨hc, h⟩⟩
      · intro hc
        exact Bool.eq_false_iff.2 fun h => hat ⟨hc, h⟩
    · rw [if_neg hv]
      rw [Bool.not_eq_true] at hv
      exact .unexpected hle hbl hv hn

/-! ### The choice is unique -/

theorem isDigit_eq_false_of_isNameStart {c : Char} (h : isNameStart c = true) :
    c.isDigit = false := by
  cases hd : c.isDigit with
  | false => rfl
  | true =>
    simp only [isNameStart, Char.isAlpha, Char.isUpper, Char.isLower, Char.isDigit,
      Bool.or_eq_true, Bool.and_eq_true, decide_eq_true_eq, beq_iff_eq,
      UInt32.le_iff_toNat_le] at h hd
    have hc : c.toNat = c.val.toNat := rfl
    have h₀ : '0'.val.toNat = 48 := rfl
    have h₉ : '9'.val.toNat = 57 := rfl
    have ha : 'A'.val.toNat = 65 := rfl
    have hz : 'a'.val.toNat = 97 := rfl
    rcases h with (((h | h) | rfl) | rfl) | h
    · omega
    · omega
    · exact absurd hd.2 (by decide)
    · exact absurd hd.1 (by decide)
    · omega

theorem isVisible_of_isDigit {c : Char} (h : c.isDigit = true) : isVisible c = true := by
  simp only [Char.isDigit, Bool.and_eq_true, decide_eq_true_eq, UInt32.le_iff_toNat_le] at h
  simp only [isVisible, Bool.and_eq_true, decide_eq_true_eq]
  have hc : c.toNat = c.val.toNat := rfl
  have h₀ : '0'.val.toNat = 48 := rfl
  have h₉ : '9'.val.toNat = 57 := rfl
  omega

theorem literalHashes?_eq_none {c : Char} (hh : c ≠ '#') (hq : c ≠ '"') (cs : List Char) :
    literalHashes? (c :: cs) = none := by
  cases h : literalHashes? (c :: cs) with
  | none => rfl
  | some hashes =>
    rcases eq_of_literalHashes? h with h | h
    · exact absurd h hh
    · exact absurd h hq

/-- A hash in front of a name starts no literal. -/
theorem literalHashes?_eq_none_of_name {c : Char} (hc : c = '@' ∨ c = '#') {cs : List Char}
    (h : cs.head?.any isNameStart = true) : literalHashes? (c :: cs) = none := by
  rcases hc with rfl | rfl
  · exact literalHashes?_eq_none (by decide) (by decide) cs
  · cases cs with
    | nil => cases h
    | cons d cs =>
      have hn : isNameStart d = true := h
      have hne : ∀ e : Char, isNameStart e = false → d ≠ e := by
        rintro e he rfl
        rw [hn] at he
        cases he
      have hh : (d == '#') = false := beq_false_of_ne (hne '#' (by decide))
      have hq : ¬ some d = some '"' := fun heq => hne '"' (by decide) (Option.some.inj heq)
      unfold literalHashes?
      simp [hh, hq]

/-- What is no line end, no blank and no line comment is read as one of the other lexemes. -/
theorem next_eq_delimited {c : Char} {cs : List Char} (hle : isLineEnd c = false)
    (hbl : isBlank c = false) (hlc : ¬ (c = '/' ∧ cs.head? = some '/')) :
    next c cs = (delimited? c cs).getD (plain c cs) := by
  unfold next layout?
  rw [hle, hbl, if_neg Bool.false_ne_true, if_neg Bool.false_ne_true, if_neg hlc]

/-- What is no layout, no comment and no literal is read as one of the lexemes that cannot lack
    their end. -/
theorem next_eq_plain {c : Char} {cs : List Char} (hle : isLineEnd c = false)
    (hbl : isBlank c = false) (hs : c = '/' → cs.head? ≠ some '/' ∧ cs.head? ≠ some '*')
    (hbt : c ≠ '\x60') (hl : literalHashes? (c :: cs) = none) : next c cs = plain c cs := by
  have hlc : ¬ (c = '/' ∧ cs.head? = some '/') := fun h => (hs h.1).1 h.2
  have hbc : ¬ (c = '/' ∧ cs.head? = some '*') := fun h => (hs h.1).2 h.2
  rw [next_eq_delimited hle hbl hlc, delimited?, if_neg hbc, if_neg hbt, hl]
  rfl

/-- Nothing but a bracket starts with a bracket. -/
theorem next_eq_plain_of_bracket {c : Char} (h : isOpener c = true ∨ isCloser c = true)
    (cs : List Char) : next c cs = plain c cs := by
  simp only [isOpener, isCloser, Bool.or_eq_true, beq_iff_eq] at h
  rcases h with ((rfl | rfl) | rfl) | ((rfl | rfl) | rfl)
  all_goals
    exact next_eq_plain (by decide) (by decide) (fun h => absurd h (by decide)) (by decide)
      (literalHashes?_eq_none (by decide) (by decide) cs)

/-- What is no bracket, attribute or directive either. -/
theorem plain_of_ne {c : Char} {cs : List Char} (ho : isOpener c = false)
    (hcl : isCloser c = false) (ha : c = '@' ∨ c = '#' → cs.head?.any isNameStart = false) :
    plain c cs = if c.isDigit then .ok ⟨.number, number cs⟩
      else if isNameStart c then .ok ⟨wordKind (c :: (word cs).text), word cs⟩
      else if isVisible c then .ok ⟨.symbol, operatorTail c cs⟩
      else .error (.unexpectedCharacter c) := by
  have ho' : ¬ (c = '(' ∨ c = '[' ∨ c = '\x7b') := by
    rintro (rfl | rfl | rfl) <;> cases ho
  have hcl' : ¬ (c = ')' ∨ c = ']' ∨ c = '\x7d') := by
    rintro (rfl | rfl | rfl) <;> cases hcl
  have hat : ¬ ((c = '@' ∨ c = '#') ∧ cs.head?.any isNameStart = true) := by
    rintro ⟨hc, h⟩
    rw [ha hc] at h
    cases h
  unfold plain
  rw [if_neg ho', if_neg hcl', if_neg hat]

/-- The characters that by themselves or with the next one start something other than a number,
    a word or an operator. -/
def markers : List Char :=
  ['\n', '\r', ' ', '\t', '/', '\x60', '#', '"', '(', '[', '\x7b', ')', ']', '\x7d', '@']

/-- Any other character tells by its class what it starts. -/
theorem next_of_not_mem_markers {c : Char} (h : c ∉ markers) (cs : List Char) :
    next c cs = if c.isDigit then .ok ⟨.number, number cs⟩
      else if isNameStart c then .ok ⟨wordKind (c :: (word cs).text), word cs⟩
      else if isVisible c then .ok ⟨.symbol, operatorTail c cs⟩
      else .error (.unexpectedCharacter c) := by
  simp only [markers, List.mem_cons, List.not_mem_nil, or_false, not_or] at h
  obtain ⟨hlf, hcr, hsp, htab, hsl, hbt, hh, hq, ho₁, ho₂, ho₃, hc₁, hc₂, hc₃, hat⟩ := h
  have hle : isLineEnd c = false := by simp [isLineEnd, hlf, hcr]
  have hbl : isBlank c = false := by simp [isBlank, hsp, htab]
  have ho : isOpener c = false := by simp [isOpener, ho₁, ho₂, ho₃]
  have hcl : isCloser c = false := by simp [isCloser, hc₁, hc₂, hc₃]
  rw [next_eq_plain hle hbl (fun h => absurd h hsl) hbt (literalHashes?_eq_none hh hq cs),
    plain_of_ne ho hcl fun h => h.elim (fun h => absurd h hat) fun h => absurd h hh]

/-- A character of one class is none of those of another. -/
theorem not_mem_of_class {q : Char → Bool} {b : Bool} {c : Char} (h : q c = b) {ds : List Char}
    (hds : (ds.all fun d => q d != b) = true) : c ∉ ds := by
  intro hc
  have hd := List.all_eq_true.1 hds c hc
  rw [h] at hd
  cases b <;> cases hd

/-- A text is read in one way only. -/
theorem Reading.next_eq {c : Char} {cs : List Char} {r : Except Fault Lexeme}
    (h : Reading c cs r) : next c cs = r := by
  cases h with
  | lineEnd h =>
    unfold next layout?
    rw [if_pos h]
  | blank h =>
    have hle : ¬ isLineEnd c = true := by
      simp only [isBlank, Bool.or_eq_true, beq_iff_eq] at h
      rcases h with rfl | rfl <;> decide
    unfold next layout?
    rw [if_neg hle, if_pos h]
  | lineComment hc h =>
    subst hc
    unfold next layout?
    rw [if_neg (by decide), if_neg (by decide), if_pos ⟨rfl, h⟩]
  | blockComment hc h =>
    subst hc
    have hlc : ¬ ('/' = '/' ∧ cs.head? = some '/') := by
      rw [h]
      rintro ⟨-, h'⟩
      cases h'
    rw [next_eq_delimited (by decide) (by decide) hlc, delimited?, if_pos ⟨rfl, h⟩]
    rfl
  | escaped hc =>
    subst hc
    have hlc : ¬ ('\x60' = '/' ∧ cs.head? = some '/') := fun h => absurd h.1 (by decide)
    have hbc : ¬ ('\x60' = '/' ∧ cs.head? = some '*') := fun h => absurd h.1 (by decide)
    rw [next_eq_delimited (by decide) (by decide) hlc, delimited?, if_neg hbc, if_pos rfl]
    rfl
  | literal hashes h =>
    -- A hash or a quote passes none of the earlier tests.
    have hc : isLineEnd c = false ∧ isBlank c = false ∧ c ≠ '/' ∧ c ≠ '\x60' := by
      rcases eq_of_literalHashes? h with rfl | rfl <;> decide
    have hlc : ¬ (c = '/' ∧ cs.head? = some '/') := fun h => hc.2.2.1 h.1
    have hbc : ¬ (c = '/' ∧ cs.head? = some '*') := fun h => hc.2.2.1 h.1
    rw [next_eq_delimited hc.1 hc.2.1 hlc, delimited?, if_neg hbc, if_neg hc.2.2.2, h]
    rfl
  | opener h =>
    rw [next_eq_plain_of_bracket (Or.inl h)]
    simp only [isOpener, Bool.or_eq_true, beq_iff_eq] at h
    rcases h with (rfl | rfl) | rfl <;> rfl
  | closer h =>
    rw [next_eq_plain_of_bracket (Or.inr h)]
    simp only [isCloser, Bool.or_eq_true, beq_iff_eq] at h
    rcases h with (rfl | rfl) | rfl <;> rfl
  | directive hc h =>
    have hlit := literalHashes?_eq_none_of_name hc h
    have hcs : isLineEnd c = false ∧ isBlank c = false ∧ c ≠ '/' ∧ c ≠ '\x60' := by
      rcases hc with rfl | rfl <;> decide
    rw [next_eq_plain hcs.1 hcs.2.1 (fun h => absurd h hcs.2.2.1) hcs.2.2.2 hlit]
    unfold plain
    rw [if_neg (by rcases hc with rfl | rfl <;> decide),
      if_neg (by rcases hc with rfl | rfl <;> decide), if_pos ⟨hc, h⟩]
  | number h =>
    -- No marker is a digit.
    rw [next_of_not_mem_markers (not_mem_of_class h (by decide)), if_pos h]
  | word h =>
    rw [next_of_not_mem_markers (not_mem_of_class h (by decide)),
      isDigit_eq_false_of_isNameStart h, if_neg Bool.false_ne_true, if_pos h]
  | operator hv ho hcl hd hn hb hs ha hl =>
    have hlayout : c ∉ ['\n', '\r', ' ', '\t'] := not_mem_of_class hv (by decide)
    simp only [List.mem_cons, List.not_mem_nil, or_false, not_or] at hlayout
    have hle : isLineEnd c = false := by simp [isLineEnd, hlayout]
    have hbl : isBlank c = false := by simp [isBlank, hlayout]
    rw [next_eq_plain hle hbl hs hb hl, plain_of_ne ho hcl ha, hd, hn, hv]
    rfl
  | unexpected hle hbl hv hn =>
    have hd : c.isDigit = false := by
      cases hd : c.isDigit with
      | false => rfl
      | true =>
        rw [isVisible_of_isDigit hd] at hv
        cases hv
    have hmarkers : c ∉ markers := by
      -- The layout is excluded by itself, the other markers are visible.
      intro hc
      have hall : (markers.all fun d => isLineEnd d || isBlank d || isVisible d) = true := by
        decide
      have hq : (isLineEnd c || isBlank c || isVisible c) = true := List.all_eq_true.1 hall c hc
      rw [hle, hbl, hv] at hq
      cases hq
    rw [next_of_not_mem_markers hmarkers, hd, hn, hv]
    rfl

/-- What is read of a text is what its reading says. -/
theorem Reading.eq_ok {c : Char} {cs : List Char} {r : Except Fault Lexeme} {l : Lexeme}
    (h : Reading c cs r) (hl : next c cs = .ok l) : r = .ok l :=
  h.next_eq.symm.trans hl

end Kotlinize
