import Kotlinize.Proofs.Bytes.Word

namespace Kotlinize

/-!
# Literals of bytes

Comments, names in backticks and string literals go on over bytes that they do not look at, and
an escape skips one byte of a character of several.  What they look at is in ASCII, so the bytes
of other characters can be passed one by one.

* `read_append`, `read_bytewise_cons` — a reader that passes a byte at a time passes characters.
* `blockComment?_bytewise`, `escapedName?_bytewise` — what stands between marks.
* `SkipsAscii` — a step that passes more than one character passes ASCII characters only.
* `scanFrames?_bytewise`, `stringLiteral?_bytewise` — string literals.
-/

/-! ### Lexemes that go on over any character -/

/-- A reader that takes a character outside ASCII as it is takes any number of them. -/
theorem read_append {read : List Char → Option Cut}
    (hread : ∀ d cs, 0x80 ≤ d.toNat → read (d :: cs) = (read cs).map (Cut.cons d))
    {ds : List Char} (hds : ∀ d ∈ ds, 0x80 ≤ d.toNat) (cs : List Char) :
    read (ds ++ cs) = (read cs).map (Cut.append ds) := by
  induction ds with
  | nil =>
    have hid : Cut.append [] = id := rfl
    rw [hid, Option.map_id]
    rfl
  | cons d ds ih =>
    rw [List.cons_append, hread d _ (hds d List.mem_cons_self),
      ih fun e he => hds e (List.mem_cons_of_mem _ he), Option.map_map]
    rfl

/-- Such a reader goes over the bytes of the character as it goes over the character. -/
theorem read_bytewise_cons {read : List Char → Option Cut}
    (hread : ∀ d cs, 0x80 ≤ d.toNat → read (d :: cs) = (read cs).map (Cut.cons d))
    {c : Char} (hc : 0x80 ≤ c.toNat) {cs : List Char}
    (ih : read (bytewise cs) = (read cs).map Cut.bytes) :
    read (bytewise (c :: cs)) = (read (c :: cs)).map Cut.bytes := by
  rw [bytewise_cons, read_append hread (le_of_mem_byteChars hc), ih, hread c cs hc]
  cases read cs with
  | none => rfl
  | some k => exact congrArg some (Cut.bytes_cons c k).symm

theorem escapedName?_bytewise (cs : List Char) :
    escapedName? (bytewise cs) = (escapedName? cs).map Cut.bytes := by
  have hread : ∀ d ds, 0x80 ≤ d.toNat → escapedName? (d :: ds)
      = (escapedName? ds).map (Cut.cons d) := by
    intro d ds hd
    have hl : isLineEnd d = false := by
      rw [coarse_isLineEnd d '\u0080' hd (by decide)]
      rfl
    rw [escapedName?, if_neg (ne_of_le_toNat hd (by decide)), hl]
    rfl
  induction cs with
  | nil => rfl
  | cons c cs ih =>
    by_cases hc : c.toNat < 0x80
    · rw [bytewise_cons_of_lt hc, escapedName?, escapedName?]
      split
      · rename_i hq
        rw [hq]
        rfl
      · split
        · rfl
        · rw [ih, Cut.map_bytes_cons hc]
    · exact read_bytewise_cons hread (Nat.le_of_not_lt hc) ih

theorem blockComment?_bytewise (depth : Nat) (cs : List Char) :
    blockComment? depth (bytewise cs) = (blockComment? depth cs).map Cut.bytes := by
  have hread : ∀ depth d ds, 0x80 ≤ d.toNat → blockComment? depth (d :: ds)
      = (blockComment? depth ds).map (Cut.cons d) := by
    intro depth d ds hd
    exact blockComment?_cons (fun h => ne_of_le_toNat hd (by decide) h.1)
      (fun h => ne_of_le_toNat hd (by decide) h.1)
  have hstar : ('*' : Char).toNat < 0x80 := by decide
  have hslash : ('/' : Char).toNat < 0x80 := by decide
  fun_induction blockComment? depth cs with
  | case1 depth cs ih =>
    rw [bytewise_cons_of_lt hslash, bytewise_cons_of_lt hstar, blockComment?, ih,
      Cut.map_bytes_cons hstar, Cut.map_bytes_cons hslash]
  | case2 cs => rfl
  | case3 depth cs hd ih =>
    rw [bytewise_cons_of_lt hstar, bytewise_cons_of_lt hslash, blockComment?, if_neg hd, ih,
      Cut.map_bytes_cons hslash, Cut.map_bytes_cons hstar]
  | case4 depth c cs hopen hclose ih =>
    by_cases hc : c.toNat < 0x80
    · rw [bytewise_cons_of_lt hc, blockComment?_cons, ih, Cut.map_bytes_cons hc]
      · rintro ⟨rfl, hs⟩
        rw [head?_bytewise_eq_some_iff hstar] at hs
        obtain ⟨rest, hrest⟩ := List.head?_eq_some_iff.1 hs
        exact hopen rest rfl hrest
      · rintro ⟨rfl, hs⟩
        rw [head?_bytewise_eq_some_iff hslash] at hs
        obtain ⟨rest, hrest⟩ := List.head?_eq_some_iff.1 hs
        exact hclose rest rfl hrest
    · have hge := Nat.le_of_not_lt hc
      rw [← hread depth c cs hge]
      exact read_bytewise_cons (hread depth) hge ih
  | case5 => rfl

/-! ### String literals -/

theorem closing_ascii {hashes : Nat} {multiline : Bool} :
    ∀ d ∈ Frame.closing hashes multiline, d.toNat < 0x80 := by
  intro d hd
  rw [Frame.closing, List.mem_append] at hd
  rcases hd with hd | hd
  · have hq : d = '"' := by
      split at hd <;> simpa using hd
    rw [hq]
    decide
  · rw [(List.mem_replicate.1 hd).2]
    decide

theorem escape_ascii {hashes : Nat} : ∀ d ∈ Frame.escape hashes, d.toNat < 0x80 := by
  intro d hd
  rcases List.mem_cons.1 hd with rfl | hd
  · decide
  · rw [(List.mem_replicate.1 hd).2]
    decide

theorem quotes_ascii : ∀ d ∈ ['"', '"', '"'], d.toNat < 0x80 :=
  ascii_of_all (by decide)

theorem startsMultiline_bytewise (cs : List Char) :
    Frame.startsMultiline (bytewise cs) = Frame.startsMultiline cs :=
  isPrefixOf_bytewise quotes_ascii cs

/-- As many characters as an escape has hashes are hashes behind its backslash. -/
theorem take_ascii_of_escape {hashes : Nat} {c : Char} {cs : List Char}
    (h : (Frame.escape hashes).isPrefixOf (c :: cs) = true) :
    ∀ d ∈ cs.take hashes, d.toNat < 0x80 := by
  have htake := take_ascii_of_isPrefixOf escape_ascii h
  rwa [Frame.escape, List.length_cons, Nat.add_sub_cancel, List.length_replicate] at htake

/-- What a character in ASCII does to a frame does not depend on the characters outside ASCII
    behind it. -/
theorem step?_bytewise {c : Char} (hc : c.toNat < 0x80) (cs : List Char) (frame : Frame) :
    frame.step? c (bytewise cs) = frame.step? c cs := by
  cases frame with
  | quoted hashes multiline =>
    have hclose : (Frame.closing hashes multiline).isPrefixOf (c :: bytewise cs)
        = (Frame.closing hashes multiline).isPrefixOf (c :: cs) := by
      rw [← bytewise_cons_of_lt hc, isPrefixOf_bytewise closing_ascii]
    have hesc : (Frame.escape hashes).isPrefixOf (c :: bytewise cs)
        = (Frame.escape hashes).isPrefixOf (c :: cs) := by
      rw [← bytewise_cons_of_lt hc, isPrefixOf_bytewise escape_ascii]
    rw [Frame.step?, Frame.step?, hclose, hesc]
    -- Only behind an escape a frame looks further, past hashes, which are in ASCII.
    by_cases h : (Frame.escape hashes).isPrefixOf (c :: cs) = true
    · have hparen : ('(' : Char).toNat < 0x80 := by decide
      rw [(take_drop_bytewise (take_ascii_of_escape h)).2]
      simp only [head?_bytewise_eq_some_iff hparen]
    · rw [if_neg h, if_neg h]
  | expression depth =>
    rw [Frame.step?, Frame.step?, ← bytewise_cons_of_lt hc, startsMultiline_bytewise]

/-- A character outside ASCII leaves every frame as it is. -/
theorem step?_of_le {d : Char} (hd : 0x80 ≤ d.toNat) (cs : List Char) (frame : Frame) :
    frame.step? d cs = some (0, [frame]) := by
  have hne : ∀ e : Char, e.toNat < 0x80 → d ≠ e := fun e he => ne_of_le_toNat hd he
  cases frame with
  | quoted hashes multiline =>
    have hl : isLineEnd d = false := by
      rw [coarse_isLineEnd d '\u0080' hd (by decide)]
      rfl
    have hclose : (Frame.closing hashes multiline).isPrefixOf (d :: cs) = false := by
      rw [Frame.closing]
      cases multiline <;>
        exact Bool.and_eq_false_imp.2 fun h => absurd (beq_iff_eq.1 h).symm (hne '"' (by decide))
    have hesc : (Frame.escape hashes).isPrefixOf (d :: cs) = false :=
      Bool.and_eq_false_imp.2 fun h => absurd (beq_iff_eq.1 h).symm (hne '\\' (by decide))
    rw [Frame.step?, hl, hclose, hesc]
    rfl
  | expression depth =>
    rw [Frame.step?, if_neg (hne '(' (by decide)), if_neg (hne ')' (by decide)),
      if_neg (hne '"' (by decide))]

/-- The characters that a reader skips are in ASCII, the last one excepted: that is the character
    that an escape skips, and then a frame is open around it. -/
def SkipsAscii (frames : List Frame) : Nat → List Char → Prop
  | 0, _ => True
  | _ + 1, [] => True
  | skip + 1, c :: cs =>
    c.toNat < 0x80 ∧ SkipsAscii frames skip cs ∨ skip = 0 ∧ frames ≠ []

theorem skipsAscii_of_take {frames : List Frame} {skip : Nat} {cs : List Char}
    (h : ∀ c ∈ cs.take skip, c.toNat < 0x80) : SkipsAscii frames skip cs := by
  induction skip generalizing cs with
  | zero => exact trivial
  | succ skip ih =>
    cases cs with
    | nil => exact trivial
    | cons c cs =>
      rw [List.take_succ_cons] at h
      exact Or.inl ⟨h c List.mem_cons_self, ih fun d hd => h d (List.mem_cons_of_mem _ hd)⟩

theorem skipsAscii_succ_of_take {frames : List Frame} (hf : frames ≠ []) {skip : Nat}
    {cs : List Char} (h : ∀ c ∈ cs.take skip, c.toNat < 0x80) :
    SkipsAscii frames (skip + 1) cs := by
  induction skip generalizing cs with
  | zero =>
    cases cs with
    | nil => exact trivial
    | cons c cs => exact Or.inr ⟨rfl, hf⟩
  | succ skip ih =>
    cases cs with
    | nil => exact trivial
    | cons c cs =>
      rw [List.take_succ_cons] at h
      exact Or.inl ⟨h c List.mem_cons_self, ih fun d hd => h d (List.mem_cons_of_mem _ hd)⟩

theorem skipsAscii_of_step? {c : Char} {cs : List Char} {frame : Frame} {skip : Nat}
    {opened : List Frame} (h : frame.step? c cs = some (skip, opened)) (frames : List Frame) :
    SkipsAscii (opened ++ frames) skip cs := by
  cases frame with
  | quoted hashes multiline =>
    rw [Frame.step?] at h
    split at h
    · cases h
    · split at h
      · rename_i hclose
        cases h
        exact skipsAscii_of_take (take_ascii_of_isPrefixOf closing_ascii hclose)
      · split at h
        · rename_i hesc
          have hascii := take_ascii_of_escape hesc
          split at h
          · -- The escaped character is skipped whatever it is, and the literal stays open.
            cases h
            exact skipsAscii_succ_of_take (List.cons_ne_nil _ _) hascii
          · cases h
            exact skipsAscii_succ_of_take (List.cons_ne_nil _ _) hascii
        · cases h
          exact trivial
  | expression depth =>
    rw [Frame.step?] at h
    split at h
    · cases h
      exact trivial
    · split at h
      · split at h <;> cases h <;> exact trivial
      · split at h
        · split at h
          · rename_i hmulti
            cases h
            exact skipsAscii_of_take (take_ascii_of_isPrefixOf quotes_ascii hmulti)
          · cases h
            exact trivial
        · cases h
          exact trivial

theorem scanFrames?_of_le (frame : Frame) (frames : List Frame) {d : Char}
    (hd : 0x80 ≤ d.toNat) (cs : List Char) :
    scanFrames? 0 (frame :: frames) (d :: cs)
      = (scanFrames? 0 (frame :: frames) cs).map (Cut.cons d) := by
  rw [scanFrames?, step?_of_le hd]
  rfl

theorem scanFrames?_bytewise {skip : Nat} {frames : List Frame} {cs : List Char}
    (h : SkipsAscii frames skip cs) :
    scanFrames? skip frames (bytewise cs) = (scanFrames? skip frames cs).map Cut.bytes := by
  fun_induction scanFrames? skip frames cs with
  | case1 cs =>
    rw [scanFrames?]
    rfl
  | case2 skip frames hne =>
    rw [bytewise_nil, scanFrames?]
    · rfl
    · exact hne
  | case3 skip frames c cs ih =>
    rcases h with ⟨hc, hrest⟩ | ⟨rfl, hf⟩
    · rw [bytewise_cons_of_lt hc, scanFrames?, ih hrest, Cut.map_bytes_cons hc]
    · by_cases hc : c.toNat < 0x80
      · rw [bytewise_cons_of_lt hc, scanFrames?, ih trivial, Cut.map_bytes_cons hc]
      · -- One byte of the character is skipped, and the frame leaves the others as they are.
        obtain ⟨frame, frames, rfl⟩ := List.exists_cons_of_ne_nil hf
        obtain ⟨d, ds, hd, -, hds⟩ := exists_byteChars_eq_cons (Nat.le_of_not_lt hc)
        rw [bytewise_cons, hd, List.cons_append, scanFrames?,
          read_append (fun e es he => scanFrames?_of_le frame frames he es) hds, ih trivial]
        cases scanFrames? 0 (frame :: frames) cs with
        | none => rfl
        | some k =>
          have hk : (k.cons c).bytes = (k.bytes.append ds).cons d := by
            rw [Cut.bytes_cons, hd]
            rfl
          exact congrArg some hk.symm
  | case4 frame frames c cs hstep =>
    -- A frame forbids line ends only, which are in ASCII.
    by_cases hc : c.toNat < 0x80
    · rw [bytewise_cons_of_lt hc, scanFrames?, step?_bytewise hc, hstep]
      rfl
    · rw [step?_of_le (Nat.le_of_not_lt hc)] at hstep
      cases hstep
  | case5 frame frames c cs skip opened hstep ih =>
    by_cases hc : c.toNat < 0x80
    · rw [bytewise_cons_of_lt hc, scanFrames?, step?_bytewise hc, hstep]
      show (scanFrames? skip (opened ++ frames) (bytewise cs)).map (Cut.cons c) = _
      rw [ih (skipsAscii_of_step? hstep frames), Cut.map_bytes_cons hc]
    · have hge := Nat.le_of_not_lt hc
      rw [step?_of_le hge] at hstep
      cases hstep
      have hread : ∀ (e : Char) (es : List Char), 0x80 ≤ e.toNat →
          scanFrames? 0 (frame :: frames) (e :: es)
            = (scanFrames? 0 (frame :: frames) es).map (Cut.cons e) :=
        fun e es he => scanFrames?_of_le frame frames he es
      rw [read_bytewise_cons hread hge (ih trivial), hread c cs hge]
      rfl

/-- The hashes and the quote that start a literal are in ASCII. -/
theorem take_ascii_of_literalHashes? {cs : List Char} {hashes : Nat}
    (h : Lexeme.literalHashes? cs = some hashes) :
    ∀ d ∈ cs.take (hashes + 1), d.toNat < 0x80 := by
  unfold Lexeme.literalHashes? at h
  dsimp only at h
  split at h
  · rename_i hquote
    cases h
    obtain ⟨rest, hrest⟩ := List.head?_eq_some_iff.1 hquote
    intro d hd
    rw [List.take_add, List.mem_append] at hd
    rcases hd with hd | hd
    · rw [← List.prefix_iff_eq_take.1 (List.takeWhile_prefix _)] at hd
      have hhash := List.all_eq_true.1 List.all_takeWhile d hd
      rw [beq_iff_eq.1 hhash]
      decide
    · rw [hrest] at hd
      rw [List.mem_singleton.1 hd]
      decide
  · cases h

theorem literalHashes?_bytewise (cs : List Char) :
    Lexeme.literalHashes? (bytewise cs) = Lexeme.literalHashes? cs := by
  have hhash : ∀ d ∈ cs.takeWhile (· == '#'), d.toNat < 0x80 := by
    intro d hd
    have heq := List.all_eq_true.1 List.all_takeWhile d hd
    rw [beq_iff_eq.1 heq]
    decide
  have htake : (bytewise cs).takeWhile (· == '#') = cs.takeWhile (· == '#') := by
    rw [(takeWhile_bytewise (coarse_beq (d := '#') (by decide)) cs).1]
    exact (bytewise_eq_iff hhash _).2 rfl
  have htaken : cs.take (cs.takeWhile (· == '#')).length = cs.takeWhile (· == '#') :=
    (List.prefix_iff_eq_take.1 (List.takeWhile_prefix _)).symm
  -- The hashes are as many bytes as characters, so the quote is looked for behind both.
  have hdrop := (take_drop_bytewise (htaken.symm ▸ hhash)).2
  have hquote : ('"' : Char).toNat < 0x80 := by decide
  unfold Lexeme.literalHashes?
  rw [htake]
  dsimp only
  rw [hdrop]
  simp only [head?_bytewise_eq_some_iff hquote]

theorem stringLiteral?_bytewise {hashes : Nat} {c : Char} (hc : c.toNat < 0x80) {cs : List Char}
    (h : Lexeme.literalHashes? (c :: cs) = some hashes) :
    stringLiteral? hashes c (bytewise cs) = (stringLiteral? hashes c cs).map Cut.bytes := by
  have hascii := take_ascii_of_literalHashes? h
  have hfirst : ∀ d ∈ (c :: cs).take hashes, d.toNat < 0x80 := by
    intro d hd
    rw [List.take_add] at hascii
    exact hascii d (List.mem_append_left _ hd)
  unfold stringLiteral?
  rw [← bytewise_cons_of_lt hc, (take_drop_bytewise hfirst).2, startsMultiline_bytewise]
  split
  · rename_i hmulti
    apply scanFrames?_bytewise
    apply skipsAscii_of_take
    -- Behind the hashes stand three quotes.
    intro d hd
    have hd' : d ∈ (c :: cs).take (hashes + 3) := by
      rw [List.take_succ_cons]
      exact List.mem_cons_of_mem _ hd
    rw [List.take_add, List.mem_append] at hd'
    rcases hd' with hd' | hd'
    · exact hfirst d hd'
    · have hpre := List.prefix_iff_eq_take.1 (List.isPrefixOf_iff_prefix.1 hmulti)
      rw [show ['"', '"', '"'].length = 3 from rfl] at hpre
      rw [← hpre] at hd'
      exact quotes_ascii d hd'
  · apply scanFrames?_bytewise
    apply skipsAscii_of_take
    intro d hd
    apply hascii d
    rw [List.take_succ_cons]
    exact List.mem_cons_of_mem _ hd

end Kotlinize
