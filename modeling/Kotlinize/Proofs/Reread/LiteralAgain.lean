import Kotlinize.Proofs.Reread.RunsOn

namespace Kotlinize

/-!
# Reading a string literal again

A literal may hold expressions, and those literals again, so nothing tells in advance how far the
test of a character looks.  As long as a scan goes on it has yet to take all characters that
close what is open, and that many characters are more than any test looks at.

* `Frame.need`, `needAll` — how many characters close what is open.
* `length_le_of_scanFrames?` — as many are left when a scan succeeds.
* `step?_append` — so no test inside the literal sees what follows it.
* `scanFrames?_again`, `stringLiteral?_again` — a literal ends where it did.
-/

/-! ### What closes a frame -/

namespace Frame

theorem length_closing (hashes : Nat) (multiline : Bool) :
    (closing hashes multiline).length = (if multiline then 3 else 1) + hashes := by
  cases multiline <;> simp [closing] <;> omega

theorem length_escape (hashes : Nat) : (escape hashes).length = hashes + 1 := by
  simp [escape]

/-- How many characters it takes to close a frame, at the least. -/
def need : Frame → Nat
  | quoted hashes multiline => (closing hashes multiline).length
  | expression _ => 1

theorem one_le_need (frame : Frame) : 1 ≤ frame.need := by
  cases frame with
  | quoted hashes multiline =>
    rw [need, length_closing]
    split <;> omega
  | expression depth => exact Nat.le_refl 1

end Frame

/-- How many characters it takes to close all open frames, at the least. -/
def needAll (frames : List Frame) : Nat := (frames.map Frame.need).sum

@[simp] theorem needAll_nil : needAll [] = 0 := rfl

@[simp] theorem needAll_cons (frame : Frame) (frames : List Frame) :
    needAll (frame :: frames) = frame.need + needAll frames := List.sum_cons

@[simp] theorem needAll_append (as bs : List Frame) :
    needAll (as ++ bs) = needAll as + needAll bs := by
  rw [needAll, List.map_append, List.sum_append]
  rfl

/-- A step uses as many characters as it brings the end of its frame nearer. -/
theorem need_le_of_step? {c : Char} {cs : List Char} {frame : Frame} {skip : Nat}
    {opened : List Frame} (h : frame.step? c cs = some (skip, opened)) :
    frame.need ≤ 1 + skip + needAll opened := by
  cases frame with
  | quoted hashes multiline =>
    rw [Frame.step?] at h
    split at h
    · cases h
    · split at h
      · cases h
        have hone := Frame.one_le_need (.quoted hashes multiline)
        rw [Frame.need] at hone ⊢
        rw [needAll_nil]
        omega
      · split at h
        · split at h
          · cases h
            simp only [needAll_cons, needAll_nil]
            omega
          · cases h
            simp only [needAll_cons, needAll_nil]
            omega
        · cases h
          simp only [needAll_cons, needAll_nil]
          omega
  | expression depth =>
    rw [Frame.need]
    omega

/-- A scan takes at least the characters that it skips and those that close what is open. -/
theorem length_le_of_scanFrames? {skip : Nat} {frames : List Frame} {cs : List Char} {k : Cut}
    (h : scanFrames? skip frames cs = some k) : skip + needAll frames ≤ k.text.length := by
  fun_induction scanFrames? skip frames cs generalizing k with
  | case1 cs =>
    cases h
    exact Nat.le_refl 0
  | case2 => cases h
  | case3 skip frames c cs ih =>
    obtain ⟨k', hk', rfl⟩ := Option.map_eq_some_iff.1 h
    have hle := ih hk'
    show skip + 1 + needAll frames ≤ k'.text.length + 1
    omega
  | case4 => cases h
  | case5 frame frames c cs skip opened hstep ih =>
    obtain ⟨k', hk', rfl⟩ := Option.map_eq_some_iff.1 h
    -- The step uses up what it brings the end nearer, the rest is the hypothesis.
    have hle := ih hk'
    have hneed := need_le_of_step? hstep
    rw [needAll_append] at hle
    rw [needAll_cons]
    show 0 + (frame.need + needAll frames) ≤ k'.text.length + 1
    omega

/-! ### What a frame looks at -/

/-- A test for a prefix does not see past a text that is at least as long. -/
theorem isPrefixOf_append_of_length_le {op as : List Char} (h : op.length ≤ as.length)
    (bs : List Char) : op.isPrefixOf (as ++ bs) = op.isPrefixOf as := by
  rw [Bool.eq_iff_iff, List.isPrefixOf_iff_prefix, List.isPrefixOf_iff_prefix]
  constructor
  · intro hp
    exact List.prefix_of_prefix_length_le hp (List.prefix_append _ _) h
  · intro hp
    exact hp.trans (List.prefix_append _ _)

/-- A literal does not see past a text that is long enough to close it, and what it opens. -/
theorem step?_quoted_append {c : Char} {as bs : List Char} {hashes : Nat} {multiline : Bool}
    {skip : Nat} {opened : List Frame}
    (h : (Frame.quoted hashes multiline).step? c (as ++ bs) = some (skip, opened))
    (hlen : skip + needAll opened ≤ as.length) (rest : List Char) :
    (Frame.quoted hashes multiline).step? c (as ++ rest) = some (skip, opened) := by
  -- The text ahead is at least as long as what closes the literal.
  have hneed := need_le_of_step? h
  rw [Frame.need] at hneed
  have hclose : (Frame.closing hashes multiline).length ≤ (c :: as).length := by
    rw [List.length_cons]
    omega
  have hesc : (Frame.escape hashes).length ≤ (c :: as).length := by
    have hlonger := Frame.length_closing hashes multiline
    rw [Frame.length_escape]
    split at hlonger <;> omega
  rw [Frame.step?, ← List.cons_append, isPrefixOf_append_of_length_le hclose,
    isPrefixOf_append_of_length_le hesc] at h ⊢
  by_cases hle : (isLineEnd c && !multiline) = true
  · rw [if_pos hle] at h
    cases h
  rw [if_neg hle] at h ⊢
  by_cases hcl : (Frame.closing hashes multiline).isPrefixOf (c :: as) = true
  · rw [if_pos hcl] at h ⊢
    exact h
  rw [if_neg hcl] at h ⊢
  by_cases he : (Frame.escape hashes).isPrefixOf (c :: as) = true
  · rw [if_pos he] at h ⊢
    -- The character behind the escape is in sight, as it is skipped.
    have hdrop : hashes < as.length := by
      split at h <;> cases h <;> simp only [needAll_cons, needAll_nil] at hlen <;> omega
    have hhead : ∀ ds : List Char, ((as ++ ds).drop hashes).head? = (as.drop hashes).head? := by
      intro ds
      rw [List.head?_drop, List.head?_drop, List.getElem?_append_left hdrop]
    rw [hhead] at h ⊢
    exact h
  · rw [if_neg he] at h ⊢
    exact h

/-- An expression looks at what follows it only to tell one quote from three. -/
theorem step?_expression_append {c : Char} {as bs : List Char} {depth skip : Nat}
    {opened : List Frame}
    (h : (Frame.expression depth).step? c (as ++ bs) = some (skip, opened))
    (hlen : skip + needAll opened ≤ as.length) (rest : List Char) :
    (Frame.expression depth).step? c (as ++ rest) = some (skip, opened) := by
  rw [Frame.step?] at h ⊢
  by_cases ho : c = '('
  · rw [if_pos ho] at h ⊢
    exact h
  rw [if_neg ho] at h ⊢
  by_cases hcl : c = ')'
  · rw [if_pos hcl] at h ⊢
    exact h
  rw [if_neg hcl] at h ⊢
  by_cases hq : c = '"'
  · rw [if_pos hq] at h ⊢
    -- One more literal has been opened, and what closes it and the expression is still to come.
    have hlong : ['"', '"', '"'].length ≤ (c :: as).length := by
      simp only [List.length_cons, List.length_nil]
      split at h
      · cases h
        omega
      · cases h
        simp [Frame.need, Frame.length_closing] at hlen
        omega
    unfold Frame.startsMultiline at h ⊢
    rw [← List.cons_append, isPrefixOf_append_of_length_le hlong] at h ⊢
    exact h
  · rw [if_neg hq] at h ⊢
    exact h

/-- A frame does not see past a text that is long enough to close it, and what it opens. -/
theorem step?_append {c : Char} {as bs : List Char} {frame : Frame} {skip : Nat}
    {opened : List Frame} (h : frame.step? c (as ++ bs) = some (skip, opened))
    (hlen : skip + needAll opened ≤ as.length) (rest : List Char) :
    frame.step? c (as ++ rest) = some (skip, opened) := by
  cases frame with
  | quoted hashes multiline => exact step?_quoted_append h hlen rest
  | expression depth => exact step?_expression_append h hlen rest

theorem scanFrames?_again {skip : Nat} {frames : List Frame} {cs : List Char} {k : Cut}
    (h : scanFrames? skip frames cs = some k) (rest : List Char) :
    scanFrames? skip frames (k.text ++ rest) = some ⟨k.text, rest⟩ := by
  fun_induction scanFrames? skip frames cs generalizing k with
  | case1 cs =>
    cases h
    rw [List.nil_append, scanFrames?]
  | case2 => cases h
  | case3 skip frames c cs ih =>
    obtain ⟨k', hk', rfl⟩ := Option.map_eq_some_iff.1 h
    show scanFrames? (skip + 1) frames (c :: (k'.text ++ rest)) = _
    rw [scanFrames?, ih hk']
    rfl
  | case4 => cases h
  | case5 frame frames c cs skip opened hstep ih =>
    obtain ⟨k', hk', rfl⟩ := Option.map_eq_some_iff.1 h
    -- The rest of the scan takes enough for the step not to see past it.
    have hlen := length_le_of_scanFrames? hk'
    rw [needAll_append] at hlen
    rw [← whole_of_scanFrames? hk', Cut.whole] at hstep
    have hagain := step?_append hstep (by omega) rest
    show scanFrames? 0 (frame :: frames) (c :: (k'.text ++ rest)) = _
    rw [scanFrames?, hagain]
    show (scanFrames? skip (opened ++ frames) (k'.text ++ rest)).map (Cut.cons c) = _
    rw [ih hk']
    rfl

/-! ### Whole literals -/

/-- A text starts with a literal if it starts with the hashes and a quote. -/
theorem literalHashes?_eq_some_iff {cs : List Char} {hashes : Nat} :
    Lexeme.literalHashes? cs = some hashes ↔ List.replicate hashes '#' ++ ['"'] <+: cs := by
  constructor
  · intro h
    unfold Lexeme.literalHashes? at h
    dsimp only at h
    split at h
    · rename_i hq
      cases h
      obtain ⟨more, hmore⟩ := List.head?_eq_some_iff.1 hq
      -- The hashes are the text up to the quote, and there are as many as are counted.
      have htake := List.prefix_iff_eq_take.1 (List.takeWhile_prefix (· == '#') (l := cs))
      have hrep : cs.takeWhile (· == '#')
          = List.replicate (cs.takeWhile (· == '#')).length '#' := by
        rw [List.eq_replicate_iff]
        refine ⟨rfl, fun c hc => ?_⟩
        have heq := List.all_eq_true.1 List.all_takeWhile c hc
        exact beq_iff_eq.1 heq
      refine ⟨more, ?_⟩
      rw [← hrep, List.append_assoc, List.singleton_append, ← hmore]
      conv => lhs; arg 1; rw [htake]
      exact List.take_append_drop _ cs
    · cases h
  · rintro ⟨more, rfl⟩
    have hall : ∀ c ∈ List.replicate hashes '#', (c == '#') = true := by
      intro c hc
      rw [(List.mem_replicate.1 hc).2]
      rfl
    have htake : (List.replicate hashes '#' ++ '"' :: more).takeWhile (· == '#')
        = List.replicate hashes '#' := by
      rw [List.takeWhile_append_of_pos hall]
      exact List.append_nil _
    rw [List.append_assoc, List.singleton_append]
    unfold Lexeme.literalHashes?
    rw [htake]
    dsimp only
    rw [List.length_replicate, List.drop_left' List.length_replicate]
    rfl

/-- A literal takes the hashes and what closes it. -/
theorem length_le_of_stringLiteral? {hashes : Nat} {c : Char} {cs : List Char} {k : Cut}
    (h : stringLiteral? hashes c cs = some k) : hashes + 1 + hashes ≤ k.text.length := by
  unfold stringLiteral? at h
  split at h
  · have hle := length_le_of_scanFrames? h
    simp only [needAll_cons, needAll_nil, Frame.need, Frame.length_closing, if_true] at hle
    omega
  · have hle := length_le_of_scanFrames? h
    simp only [needAll_cons, needAll_nil, Frame.need, Frame.length_closing, Bool.false_eq_true,
      if_false] at hle
    omega

/-- The hashes and the first quotes are part of a literal. -/
theorem lt_length_of_stringLiteral? {hashes : Nat} {c : Char} {cs : List Char} {k : Cut}
    (h : stringLiteral? hashes c cs = some k) : hashes < k.text.length := by
  have hle := length_le_of_stringLiteral? h
  omega

/-- Two quotes do not make a literal of many lines. -/
theorem startsMultiline_eq_false {c : Char} {cs : List Char} {k : Cut}
    (h : stringLiteral? 0 c cs = some k) (hk : k.text.length = 1) :
    Frame.startsMultiline (c :: cs) = false := by
  rw [Bool.eq_false_iff]
  intro hm
  unfold stringLiteral? at h
  rw [List.drop_zero, if_pos hm] at h
  have hle := length_le_of_scanFrames? h
  rw [hk] at hle
  exact absurd hle (by decide)

/-- Three quotes start a literal of many lines, which no two quotes close. -/
theorem ne_of_stringLiteral?_quotes {cs : List Char} {k : Cut}
    (h : stringLiteral? 0 '"' ('"' :: '"' :: cs) = some k) : k.text ≠ ['"'] := by
  intro hk
  have hm := startsMultiline_eq_false h (by rw [hk]; rfl)
  cases hm

/-- Whether a literal is one of many lines does not depend on what follows it, unless it is
    empty and a third quote follows. -/
theorem startsMultiline_again {hashes : Nat} {c : Char} {cs : List Char} {k : Cut}
    (h : stringLiteral? hashes c cs = some k) {rest : List Char}
    (hrest : goesOn .stringLiteral (c :: k.text) rest = false) :
    Frame.startsMultiline ((c :: (k.text ++ rest)).drop hashes)
      = Frame.startsMultiline ((c :: cs).drop hashes) := by
  obtain rfl : k.text ++ k.rest = cs := whole_of_stringLiteral? h
  have hlen := length_le_of_stringLiteral? h
  have hdrop : ∀ ds : List Char,
      (c :: (k.text ++ ds)).drop hashes = (c :: k.text).drop hashes ++ ds := by
    intro ds
    rw [← List.cons_append, List.drop_append_of_le_length]
    rw [List.length_cons]
    omega
  by_cases hthree : 3 ≤ ((c :: k.text).drop hashes).length
  · have hlong : ['"', '"', '"'].length ≤ ((c :: k.text).drop hashes).length := hthree
    rw [hdrop, hdrop]
    unfold Frame.startsMultiline
    rw [isPrefixOf_append_of_length_le hlong, isPrefixOf_append_of_length_le hlong]
  · -- Only an empty literal without hashes is so short.
    rw [List.length_drop, List.length_cons] at hthree
    obtain rfl : hashes = 0 := by omega
    have hone : k.text.length = 1 := by omega
    rw [List.drop_zero, List.drop_zero, startsMultiline_eq_false h hone, Bool.eq_false_iff]
    intro hm
    obtain ⟨d, hd⟩ := List.length_eq_one_iff.1 hone
    rw [hd] at hm hrest
    obtain ⟨more, hmore⟩ := List.isPrefixOf_iff_prefix.1 hm
    have hthird : '"' = c ∧ '"' = d ∧ '"' :: more = rest := by
      simpa using hmore
    obtain ⟨rfl, rfl, rfl⟩ := hthird
    cases hrest

/-- The hashes in front of a literal are counted as they were. -/
theorem literalHashes?_again {hashes : Nat} {c : Char} {cs : List Char} {k : Cut}
    (hh : Lexeme.literalHashes? (c :: cs) = some hashes)
    (h : stringLiteral? hashes c cs = some k) (rest : List Char) :
    Lexeme.literalHashes? (c :: (k.text ++ rest)) = some hashes := by
  obtain rfl : k.text ++ k.rest = cs := whole_of_stringLiteral? h
  have hlen := lt_length_of_stringLiteral? h
  rw [literalHashes?_eq_some_iff] at hh ⊢
  have hle : (List.replicate hashes '#' ++ ['"']).length ≤ (c :: k.text).length := by
    simp
    omega
  have hpre : List.replicate hashes '#' ++ ['"'] <+: c :: k.text :=
    List.prefix_of_prefix_length_le hh (List.prefix_append (c :: k.text) k.rest) hle
  exact hpre.trans (List.prefix_append (c :: k.text) rest)

/-- **A string literal is read again** in front of a text that adds no third quote to it. -/
theorem stringLiteral?_again {hashes : Nat} {c : Char} {cs : List Char} {k : Cut}
    (hh : Lexeme.literalHashes? (c :: cs) = some hashes)
    (h : stringLiteral? hashes c cs = some k) (rest : List Char)
    (hrest : goesOn .stringLiteral (c :: k.text) rest = false) :
    Lexeme.literalHashes? (c :: (k.text ++ rest)) = some hashes
      ∧ stringLiteral? hashes c (k.text ++ rest) = some ⟨k.text, rest⟩ := by
  refine ⟨literalHashes?_again hh h rest, ?_⟩
  have hmulti := startsMultiline_again h hrest
  unfold stringLiteral? at h ⊢
  rw [hmulti]
  split at h
  · rename_i hm
    rw [if_pos hm]
    exact scanFrames?_again h rest
  · rename_i hm
    rw [if_neg hm]
    exact scanFrames?_again h rest

end Kotlinize
