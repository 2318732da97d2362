import Kotlinize.Source.Tokenize
import Mathlib

namespace Kotlinize

/-!
# The bytes of a text

A source text is stored as bytes in UTF-8.  Read as a character by itself, a byte of an ASCII
character is that character, and any other byte stands outside ASCII, as the character does that
it belongs to.  So a class that does not tell the characters outside ASCII apart cuts the bytes
where it cuts the characters.

* `utf8` — the bytes of a text.
* `byteChars`, `bytewise` — the same as characters: a byte is the character of its number.
* `takeWhile_bytewise`, `isPrefixOf_bytewise`, … — what a reader sees of the bytes.
* `dropMarkBytes` — a text without the three bytes of the byte order mark in front of it.
-/

/-- The bytes of a text in UTF-8. -/
def utf8 (text : String) : List UInt8 := text.toUTF8.data.toList

/-- The bytes of a character, each as the character of its number. -/
def byteChars (c : Char) : List Char := (String.utf8EncodeChar c).map Char.ofUInt8

/-- The bytes of a text, each as the character of its number. -/
def bytewise (cs : List Char) : List Char := cs.flatMap byteChars

theorem utf8_eq_flatMap (text : String) :
    utf8 text = text.toList.flatMap String.utf8EncodeChar := by
  have h : text.toUTF8 = text.toList.utf8Encode := by
    rw [String.toUTF8_eq_toByteArray, String.utf8Encode_toList]
  rw [utf8, h, List.utf8Encode, List.toList_data_toByteArray]

theorem map_ofUInt8_utf8 (text : String) :
    (utf8 text).map Char.ofUInt8 = bytewise text.toList := by
  rw [utf8_eq_flatMap, List.map_flatMap]
  rfl

theorem toUInt8_ofUInt8 (b : UInt8) : (Char.ofUInt8 b).toUInt8 = b := by
  show b.toUInt32.toUInt8 = b
  exact UInt8.toUInt8_toUInt32 b

theorem map_toUInt8_bytewise (text : String) :
    (bytewise text.toList).map Char.toUInt8 = utf8 text := by
  rw [← map_ofUInt8_utf8, List.map_map]
  have h : Char.toUInt8 ∘ Char.ofUInt8 = id := funext toUInt8_ofUInt8
  rw [h, List.map_id]

@[simp] theorem bytewise_nil : bytewise [] = [] := rfl

theorem bytewise_cons (c : Char) (cs : List Char) :
    bytewise (c :: cs) = byteChars c ++ bytewise cs := List.flatMap_cons

/-! ### Characters in ASCII and outside it -/

theorem toNat_ofUInt8 (b : UInt8) : (Char.ofUInt8 b).toNat = b.toNat := by
  show b.toUInt32.toNat = b.toNat
  exact UInt8.toNat_toUInt32 b

/-- A character in ASCII is its own byte. -/
theorem byteChars_of_lt {c : Char} (h : c.toNat < 0x80) : byteChars c = [c] := by
  have hv : c.val.toNat ≤ 0x7f := Nat.le_of_lt_succ h
  unfold byteChars String.utf8EncodeChar
  rw [if_pos hv, List.map_singleton]
  congr
  apply Char.toNat_inj.1
  rw [toNat_ofUInt8, UInt8.toNat_ofNat', Nat.mod_eq_of_lt (Nat.lt_of_le_of_lt hv (by decide))]
  rfl

/-- Every byte of a character outside ASCII is outside ASCII. -/
theorem le_of_mem_byteChars {c : Char} (h : 0x80 ≤ c.toNat) :
    ∀ d ∈ byteChars c, 0x80 ≤ d.toNat := by
  have hv : ¬ c.val.toNat ≤ 0x7f := Nat.not_le_of_lt h
  intro d hd
  obtain ⟨b, hb, rfl⟩ := List.mem_map.1 hd
  rw [toNat_ofUInt8]
  unfold String.utf8EncodeChar at hb
  dsimp only at hb
  rw [if_neg hv] at hb
  -- Two, three or four bytes: each has an offset of at least 128.
  split at hb
  · simp only [List.mem_cons, List.not_mem_nil, or_false] at hb
    rcases hb with rfl | rfl <;> rw [UInt8.toNat_ofNat'] <;> omega
  · split at hb
    · simp only [List.mem_cons, List.not_mem_nil, or_false] at hb
      rcases hb with rfl | rfl | rfl <;> rw [UInt8.toNat_ofNat'] <;> omega
    · simp only [List.mem_cons, List.not_mem_nil, or_false] at hb
      rcases hb with rfl | rfl | rfl | rfl <;> rw [UInt8.toNat_ofNat'] <;> omega

theorem byteChars_ne_nil (c : Char) : byteChars c ≠ [] := by
  unfold byteChars
  rw [Ne, List.map_eq_nil_iff]
  exact String.utf8EncodeChar_ne_nil

/-- The first byte of a character outside ASCII, and those behind it. -/
theorem exists_byteChars_eq_cons {c : Char} (h : 0x80 ≤ c.toNat) :
    ∃ d ds, byteChars c = d :: ds ∧ 0x80 ≤ d.toNat ∧ ∀ e ∈ ds, 0x80 ≤ e.toNat := by
  obtain ⟨d, ds, hd⟩ := List.exists_cons_of_ne_nil (byteChars_ne_nil c)
  have hmem := le_of_mem_byteChars h
  rw [hd] at hmem
  exact ⟨d, ds, hd, hmem d List.mem_cons_self, fun e he => hmem e (List.mem_cons_of_mem _ he)⟩

theorem ne_of_le_toNat {c d : Char} (h : 0x80 ≤ c.toNat) (hd : d.toNat < 0x80) : c ≠ d := by
  rintro rfl
  omega

theorem bytewise_cons_of_lt {c : Char} (h : c.toNat < 0x80) (cs : List Char) :
    bytewise (c :: cs) = c :: bytewise cs := by
  rw [bytewise_cons, byteChars_of_lt h]
  rfl

/-! ### What a reader sees of the bytes -/

/-- A class that does not tell the characters outside ASCII apart. -/
def Coarse (p : Char → Bool) : Prop :=
  ∀ c d : Char, 0x80 ≤ c.toNat → 0x80 ≤ d.toNat → p c = p d

/-- A class within ASCII is coarse. -/
theorem coarse_of_eq_false {p : Char → Bool} (h : ∀ c, 0x80 ≤ c.toNat → p c = false) :
    Coarse p := by
  intro c d hc hd
  rw [h c hc, h d hd]

theorem coarse_beq {d : Char} (hd : d.toNat < 0x80) : Coarse (· == d) :=
  coarse_of_eq_false fun _ hc => beq_false_of_ne (ne_of_le_toNat hc hd)

/-- A character and its bytes belong to the same coarse classes. -/
theorem Coarse.eq_of_mem {p : Char → Bool} (hp : Coarse p) {c d : Char} (hd : d ∈ byteChars c) :
    p d = p c := by
  by_cases hc : c.toNat < 0x80
  · rw [byteChars_of_lt hc, List.mem_singleton] at hd
    rw [hd]
  · exact hp d c (le_of_mem_byteChars (Nat.le_of_not_lt hc) d hd) (Nat.le_of_not_lt hc)

theorem takeWhile_bytewise {p : Char → Bool} (hp : Coarse p) (cs : List Char) :
    (bytewise cs).takeWhile p = bytewise (cs.takeWhile p)
      ∧ (bytewise cs).dropWhile p = bytewise (cs.dropWhile p) := by
  induction cs with
  | nil => exact ⟨rfl, rfl⟩
  | cons c cs ih =>
    rw [bytewise_cons]
    by_cases hc : p c = true
    · have hall : ∀ d ∈ byteChars c, p d = true := fun d hd => by rw [hp.eq_of_mem hd, hc]
      rw [List.takeWhile_append_of_pos hall, List.dropWhile_append_of_pos hall,
        List.takeWhile_cons_of_pos hc, List.dropWhile_cons_of_pos hc, bytewise_cons, ih.1, ih.2]
      exact ⟨rfl, rfl⟩
    · obtain ⟨d, ds, hd⟩ := List.exists_cons_of_ne_nil (byteChars_ne_nil c)
      have hnot : ¬ p d = true := by
        rw [hp.eq_of_mem (hd ▸ List.mem_cons_self)]
        exact hc
      rw [List.takeWhile_cons_of_neg hc, List.dropWhile_cons_of_neg hc, bytewise_cons, hd,
        List.cons_append, List.takeWhile_cons_of_neg hnot, List.dropWhile_cons_of_neg hnot]
      exact ⟨rfl, rfl⟩

theorem head?_any_bytewise {p : Char → Bool} (hp : Coarse p) (cs : List Char) :
    (bytewise cs).head?.any p = cs.head?.any p := by
  cases cs with
  | nil => rfl
  | cons c cs =>
    obtain ⟨d, ds, hd⟩ := List.exists_cons_of_ne_nil (byteChars_ne_nil c)
    rw [bytewise_cons, hd]
    exact hp.eq_of_mem (hd ▸ List.mem_cons_self)

theorem head?_bytewise_eq_some_iff {d : Char} (hd : d.toNat < 0x80) (cs : List Char) :
    (bytewise cs).head? = some d ↔ cs.head? = some d := by
  have hany : ∀ o : Option Char, o = some d ↔ o.any (· == d) = true := by
    intro o
    cases o with
    | none => exact ⟨fun h => (by cases h), fun h => (by cases h)⟩
    | some c => rw [Option.some.injEq, Option.any_some, beq_iff_eq]
  rw [hany, hany, head?_any_bytewise (coarse_beq hd)]

theorem isPrefixOf_bytewise {op : List Char} (hop : ∀ d ∈ op, d.toNat < 0x80) (cs : List Char) :
    op.isPrefixOf (bytewise cs) = op.isPrefixOf cs := by
  induction op generalizing cs with
  | nil => rw [List.isPrefixOf_nil_left, List.isPrefixOf_nil_left]
  | cons o op ih =>
    have ho := hop o List.mem_cons_self
    cases cs with
    | nil => rfl
    | cons c cs =>
      by_cases hc : c.toNat < 0x80
      · rw [bytewise_cons_of_lt hc, List.isPrefixOf_cons_cons, List.isPrefixOf_cons_cons,
          ih fun d hd => hop d (List.mem_cons_of_mem _ hd)]
      · obtain ⟨d, ds, hd, hge, -⟩ := exists_byteChars_eq_cons (Nat.le_of_not_lt hc)
        have h₁ : (o == d) = false := beq_false_of_ne (ne_of_le_toNat hge ho).symm
        have h₂ : (o == c) = false :=
          beq_false_of_ne (ne_of_le_toNat (Nat.le_of_not_lt hc) ho).symm
        rw [bytewise_cons, hd, List.cons_append, List.isPrefixOf_cons_cons,
          List.isPrefixOf_cons_cons, h₁, h₂, Bool.false_and, Bool.false_and]

/-- Characters in ASCII are as many as their bytes. -/
theorem take_drop_bytewise {n : Nat} {cs : List Char} (h : ∀ c ∈ cs.take n, c.toNat < 0x80) :
    (bytewise cs).take n = bytewise (cs.take n) ∧ (bytewise cs).drop n = bytewise (cs.drop n) := by
  induction n generalizing cs with
  | zero => exact ⟨rfl, rfl⟩
  | succ n ih =>
    cases cs with
    | nil => exact ⟨rfl, rfl⟩
    | cons c cs =>
      rw [List.take_succ_cons] at h
      have hc := h c List.mem_cons_self
      obtain ⟨ht, hd⟩ := ih fun d hd => h d (List.mem_cons_of_mem _ hd)
      rw [bytewise_cons_of_lt hc, List.take_succ_cons, List.take_succ_cons, List.drop_succ_cons,
        List.drop_succ_cons, bytewise_cons_of_lt hc, ht, hd]
      exact ⟨rfl, rfl⟩

/-- A text in ASCII is the bytes of no other text. -/
theorem bytewise_eq_iff {ws : List Char} (hws : ∀ d ∈ ws, d.toNat < 0x80) (cs : List Char) :
    bytewise cs = ws ↔ cs = ws := by
  induction ws generalizing cs with
  | nil =>
    constructor
    · intro h
      cases cs with
      | nil => rfl
      | cons c cs =>
        rw [bytewise_cons] at h
        exact absurd (List.append_eq_nil_iff.1 h).1 (byteChars_ne_nil c)
    · rintro rfl
      rfl
  | cons w ws ih =>
    have hw := hws w List.mem_cons_self
    have hrest := ih fun d hd => hws d (List.mem_cons_of_mem _ hd)
    cases cs with
    | nil => exact ⟨fun h => (by cases h), fun h => (by cases h)⟩
    | cons c cs =>
      by_cases hc : c.toNat < 0x80
      · rw [bytewise_cons_of_lt hc, List.cons.injEq, List.cons.injEq, hrest]
      · obtain ⟨d, ds, hd, hge, -⟩ := exists_byteChars_eq_cons (Nat.le_of_not_lt hc)
        rw [bytewise_cons, hd, List.cons_append, List.cons.injEq, List.cons.injEq]
        exact ⟨fun h => absurd h.1 (ne_of_le_toNat hge hw),
          fun h => absurd h.1 (ne_of_le_toNat (Nat.le_of_not_lt hc) hw)⟩

/-! ### The byte order mark -/

/-- The bytes of the byte order mark. -/
def markBytes : List UInt8 := [0xef, 0xbb, 0xbf]

/-- A text in bytes without the byte order mark in front of it. -/
def dropMarkBytes (bs : List UInt8) : List UInt8 :=
  if markBytes.isPrefixOf bs then bs.drop 3 else bs

theorem utf8EncodeChar_mark : String.utf8EncodeChar '\ufeff' = markBytes := by
  decide

/-- A byte, from the sum that makes it up. -/
theorem toNat_eq_of_ofNat {n : Nat} {b : UInt8} (h : b = UInt8.ofNat n) (hn : n < 256) :
    n = b.toNat := by
  rw [h, UInt8.toNat_ofNat', Nat.mod_eq_of_lt hn]

/-- No other character starts with the bytes of the byte order mark. -/
theorem eq_mark_of_starts {c : Char} {bs : List UInt8}
    (h : markBytes <+: String.utf8EncodeChar c ++ bs) : c = '\ufeff' := by
  apply Char.toNat_inj.1
  show c.val.toNat = 0xfeff
  obtain ⟨more, hmore⟩ := h
  unfold String.utf8EncodeChar at hmore
  dsimp only at hmore
  have hmark : ∀ (b : UInt8) (rest : List UInt8), markBytes ++ more = b :: rest →
      0xef = b ∧ 0xbb :: 0xbf :: more = rest := fun b rest hb => List.cons.inj hb
  -- The first byte tells how many bytes there are, and 239 is the first of three.
  split at hmore
  · have hb := toNat_eq_of_ofNat (hmark _ _ hmore).1 (by omega)
    have hef : (0xef : UInt8).toNat = 239 := rfl
    omega
  · split at hmore
    · have hb := toNat_eq_of_ofNat (hmark _ _ hmore).1 (by omega)
      have hef : (0xef : UInt8).toNat = 239 := rfl
      omega
    · split at hmore
      · -- Three bytes: they fix the number.
        obtain ⟨h₁, hrest⟩ := hmark _ _ hmore
        obtain ⟨h₂, hrest⟩ := List.cons.inj hrest
        obtain ⟨h₃, -⟩ := List.cons.inj hrest
        have hb₁ := toNat_eq_of_ofNat h₁ (by omega)
        have hb₂ := toNat_eq_of_ofNat h₂ (by omega)
        have hb₃ := toNat_eq_of_ofNat h₃ (by omega)
        have hef : (0xef : UInt8).toNat = 239 := rfl
        have hbb : (0xbb : UInt8).toNat = 187 := rfl
        have hbf : (0xbf : UInt8).toNat = 191 := rfl
        omega
      · have hb := toNat_eq_of_ofNat (hmark _ _ hmore).1 (by omega)
        have hef : (0xef : UInt8).toNat = 239 := rfl
        omega

/-- The mark is dropped from the bytes exactly where it is dropped from the characters. -/
theorem dropMarkBytes_flatMap (cs : List Char) :
    dropMarkBytes (cs.flatMap String.utf8EncodeChar)
      = (dropMark cs).flatMap String.utf8EncodeChar := by
  cases cs with
  | nil => rfl
  | cons c cs =>
    rw [List.flatMap_cons, dropMark, dropMarkBytes]
    by_cases hc : c = '\ufeff'
    · rw [if_pos hc, hc, utf8EncodeChar_mark,
        if_pos (List.isPrefixOf_iff_prefix.2 (List.prefix_append _ _))]
      rfl
    · have hnot : ¬ markBytes.isPrefixOf
          (String.utf8EncodeChar c ++ cs.flatMap String.utf8EncodeChar) = true :=
        fun h => hc (eq_mark_of_starts (List.isPrefixOf_iff_prefix.1 h))
      rw [if_neg hc, if_neg hnot, List.flatMap_cons]

end Kotlinize
