import Kotlinize.Proofs.Lexemes
import Kotlinize.Proofs.Bytes.Utf8

namespace Kotlinize

/-!
# Words of bytes

A text can be cut byte by byte, with bytes outside ASCII taken for parts of names.  A reader that
stops where a class of characters ends stops between characters: its class tells no two
characters outside ASCII apart, so it takes all bytes of a character or none.

* `coarse_isNamePart`, `coarse_isDigit`, … — the classes of the readers.
* `Cut.bytes` — a cut of a text, in bytes.
* `word_bytewise`, `number_bytewise`, `operatorTail_bytewise`, … — on the bytes of a text, a reader
  takes the bytes of what it takes of the text.
-/

/-! ### Classes -/

theorem coarse_isLineEnd : Coarse isLineEnd := by
  refine coarse_of_eq_false fun c hc => ?_
  have hn : c ≠ '\n' := ne_of_le_toNat hc (by decide)
  have hr : c ≠ '\r' := ne_of_le_toNat hc (by decide)
  simp [isLineEnd, hn, hr]

theorem coarse_isBlank : Coarse isBlank := by
  refine coarse_of_eq_false fun c hc => ?_
  have hs : c ≠ ' ' := ne_of_le_toNat hc (by decide)
  have ht : c ≠ '\t' := ne_of_le_toNat hc (by decide)
  simp [isBlank, hs, ht]

theorem isNameStart_of_le {c : Char} (h : 0x80 ≤ c.toNat) : isNameStart c = true := by
  simp [isNameStart, h]

theorem coarse_isNameStart : Coarse isNameStart := by
  intro c d hc hd
  rw [isNameStart_of_le hc, isNameStart_of_le hd]

theorem coarse_isNamePart : Coarse isNamePart := by
  intro c d hc hd
  rw [isNamePart_of_isNameStart (isNameStart_of_le hc),
    isNamePart_of_isNameStart (isNameStart_of_le hd)]

/-- A digit is in ASCII. -/
theorem lt_of_isDigit {c : Char} (h : c.isDigit = true) : c.toNat < 0x80 := by
  simp only [Char.isDigit, Bool.and_eq_true, decide_eq_true_eq, UInt32.le_iff_toNat_le] at h
  have hmax : '9'.val.toNat = 57 := rfl
  have hc : c.toNat = c.val.toNat := rfl
  omega

theorem coarse_isDigit : Coarse Char.isDigit := by
  refine coarse_of_eq_false fun c hc => ?_
  cases h : c.isDigit with
  | false => rfl
  | true =>
    have hlt := lt_of_isDigit h
    omega

/-- What goes on with a number is in ASCII. -/
theorem lt_of_isNumberPart {c : Char} (h : isNumberPart c = true) : c.toNat < 0x80 := by
  simp only [isNumberPart, Char.isAlphanum, Char.isAlpha, Char.isUpper, Char.isLower,
    Char.isDigit, Bool.or_eq_true, Bool.and_eq_true, decide_eq_true_eq, beq_iff_eq,
    UInt32.le_iff_toNat_le] at h
  have hc : c.toNat = c.val.toNat := rfl
  rcases h with ((h | h) | h) | h
  · have hmax : 'Z'.val.toNat = 90 := rfl
    omega
  · have hmax : 'z'.val.toNat = 122 := rfl
    omega
  · have hmax : '9'.val.toNat = 57 := rfl
    omega
  · rw [h]
    decide

/-! ### Cuts -/

/-- A cut of a text, in bytes. -/
def Cut.bytes (k : Cut) : Cut := ⟨bytewise k.text, bytewise k.rest⟩

/-- A cut with more characters taken at the front. -/
def Cut.append (ds : List Char) (k : Cut) : Cut := ⟨ds ++ k.text, k.rest⟩

theorem Cut.bytes_cons (c : Char) (k : Cut) :
    (k.cons c).bytes = k.bytes.append (byteChars c) := by
  show (⟨bytewise (c :: k.text), _⟩ : Cut) = _
  rw [bytewise_cons]
  rfl

theorem Cut.bytes_cons_of_lt {c : Char} (h : c.toNat < 0x80) (k : Cut) :
    (k.cons c).bytes = k.bytes.cons c := by
  rw [Cut.bytes_cons, byteChars_of_lt h]
  rfl

theorem Cut.map_bytes_cons {c : Char} (h : c.toNat < 0x80) (k? : Option Cut) :
    (k?.map Cut.bytes).map (Cut.cons c) = (k?.map (Cut.cons c)).map Cut.bytes := by
  cases k? with
  | none => rfl
  | some k => exact congrArg some (Cut.bytes_cons_of_lt h k).symm

theorem Cut.takeWhile_bytewise {p : Char → Bool} (hp : Coarse p) (cs : List Char) :
    Cut.takeWhile p (bytewise cs) = (Cut.takeWhile p cs).bytes := by
  obtain ⟨ht, hd⟩ := Kotlinize.takeWhile_bytewise hp cs
  rw [Cut.takeWhile, ht, hd]
  rfl

theorem Cut.take_bytewise {n : Nat} {cs : List Char} (h : ∀ c ∈ cs.take n, c.toNat < 0x80) :
    Cut.take n (bytewise cs) = (Cut.take n cs).bytes := by
  obtain ⟨ht, hd⟩ := take_drop_bytewise h
  rw [Cut.take, ht, hd]
  rfl

/-! ### Words, numbers and operators -/

theorem word_bytewise (cs : List Char) : word (bytewise cs) = (word cs).bytes :=
  Cut.takeWhile_bytewise coarse_isNamePart cs

theorem lineComment_bytewise (cs : List Char) :
    lineComment (bytewise cs) = (lineComment cs).bytes := by
  apply Cut.takeWhile_bytewise
  intro c d hc hd
  show (!isLineEnd c) = !isLineEnd d
  rw [coarse_isLineEnd c d hc hd]

/-- A number is in ASCII. -/
theorem numberLength_bytewise (cs : List Char) :
    numberLength (bytewise cs) = numberLength cs
      ∧ ∀ c ∈ cs.take (numberLength cs), c.toNat < 0x80 := by
  induction cs with
  | nil => exact ⟨rfl, fun c hc => (by cases hc)⟩
  | cons c cs ih =>
    by_cases hc : c.toNat < 0x80
    · rw [bytewise_cons_of_lt hc, numberLength, numberLength, head?_any_bytewise coarse_isDigit]
      split
      · refine ⟨by rw [ih.1], fun d hd => ?_⟩
        rw [List.take_succ_cons, List.mem_cons] at hd
        rcases hd with rfl | hd
        · exact hc
        · exact ih.2 d hd
      · exact ⟨rfl, fun d hd => (by cases hd)⟩
    · -- Outside ASCII no number goes on, neither by the character nor by its first byte.
      have hstop : ∀ d ds, 0x80 ≤ d.toNat → numberLength (d :: ds) = 0 := by
        intro d ds hd
        have hpart : isNumberPart d = false := by
          cases h : isNumberPart d with
          | false => rfl
          | true =>
            have hlt := lt_of_isNumberPart h
            omega
        have hpoint : (d == '.') = false := beq_false_of_ne (ne_of_le_toNat hd (by decide))
        rw [numberLength, hpart, hpoint]
        rfl
      have hge := Nat.le_of_not_lt hc
      obtain ⟨d, ds, hd, hdge, -⟩ := exists_byteChars_eq_cons hge
      rw [bytewise_cons, hd, List.cons_append, hstop d _ hdge, hstop c cs hge]
      exact ⟨rfl, fun e he => (by cases he)⟩

theorem number_bytewise (cs : List Char) : number (bytewise cs) = (number cs).bytes := by
  obtain ⟨hlen, hascii⟩ := numberLength_bytewise cs
  rw [number, hlen, Cut.take_bytewise hascii]
  rfl

theorem find?_congr_of_mem {α : Type} {p q : α → Bool} {l : List α} (h : ∀ a ∈ l, p a = q a) :
    l.find? p = l.find? q := by
  induction l with
  | nil => rfl
  | cons a l ih =>
    rw [List.find?_cons, List.find?_cons, h a List.mem_cons_self,
      ih fun b hb => h b (List.mem_cons_of_mem _ hb)]

/-- A list of characters in ASCII, by evaluation. -/
theorem ascii_of_all {ds : List Char} (h : (ds.all fun d => d.toNat < 0x80) = true) :
    ∀ d ∈ ds, d.toNat < 0x80 :=
  fun d hd => of_decide_eq_true (List.all_eq_true.1 h d hd)

theorem operators_ascii : ∀ op ∈ operators, ∀ d ∈ op, d.toNat < 0x80 := by
  have h : (operators.all fun op => op.all fun d => d.toNat < 0x80) = true := by decide
  exact fun op hop => ascii_of_all (List.all_eq_true.1 h op hop)

/-- The characters behind the first one of a prefix in ASCII. -/
theorem take_ascii_of_isPrefixOf {op : List Char} (hop : ∀ d ∈ op, d.toNat < 0x80) {c : Char}
    {cs : List Char} (h : op.isPrefixOf (c :: cs) = true) :
    ∀ d ∈ cs.take (op.length - 1), d.toNat < 0x80 := by
  cases op with
  | nil =>
    intro d hd
    cases hd
  | cons o op =>
    intro d hd
    have htail : op <+: cs := (List.cons_prefix_cons.1 (List.isPrefixOf_iff_prefix.1 h)).2
    rw [List.length_cons, Nat.add_sub_cancel, ← List.prefix_iff_eq_take.1 htail] at hd
    exact hop d (List.mem_cons_of_mem _ hd)

theorem operatorTail_bytewise {c : Char} (hc : c.toNat < 0x80) (cs : List Char) :
    operatorTail c (bytewise cs) = (operatorTail c cs).bytes := by
  have hfind : operators.find? (·.isPrefixOf (c :: bytewise cs))
      = operators.find? (·.isPrefixOf (c :: cs)) := by
    apply find?_congr_of_mem
    intro op hop
    rw [← bytewise_cons_of_lt hc, isPrefixOf_bytewise (operators_ascii op hop)]
  unfold operatorTail
  rw [hfind]
  split
  · rename_i op hop
    apply Cut.take_bytewise
    exact take_ascii_of_isPrefixOf (operators_ascii op (List.mem_of_find?_eq_some hop))
      (List.find?_some (p := fun op : List Char => op.isPrefixOf (c :: cs)) hop)
  · rfl

theorem reservedWords_ascii : ∀ w ∈ reservedWords, ∀ d ∈ w.toList, d.toNat < 0x80 := by
  have h : (reservedWords.all fun w => w.toList.all fun d => d.toNat < 0x80) = true := by
    decide +kernel
  exact fun w hw => ascii_of_all (List.all_eq_true.1 h w hw)

/-- A word outside ASCII is not reserved, and neither are its bytes. -/
theorem wordKind_bytewise (text : List Char) :
    Lexeme.wordKind (bytewise text) = Lexeme.wordKind text := by
  have hmem : ∀ cs : List Char, reservedWords.contains (String.ofList cs) = true
      ↔ ∃ w ∈ reservedWords, cs = w.toList := by
    intro cs
    rw [List.contains_iff_mem]
    constructor
    · intro h
      exact ⟨_, h, String.toList_ofList.symm⟩
    · rintro ⟨w, hw, rfl⟩
      rwa [String.ofList_toList]
  have hiff : reservedWords.contains (String.ofList (bytewise text)) = true
      ↔ reservedWords.contains (String.ofList text) = true := by
    rw [hmem, hmem]
    constructor
    · rintro ⟨w, hw, h⟩
      exact ⟨w, hw, (bytewise_eq_iff (reservedWords_ascii w hw) text).1 h⟩
    · rintro ⟨w, hw, h⟩
      exact ⟨w, hw, (bytewise_eq_iff (reservedWords_ascii w hw) text).2 h⟩
  unfold Lexeme.wordKind
  rw [Bool.eq_iff_iff.2 hiff]

end Kotlinize
