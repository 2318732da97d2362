import Kotlinize.Proofs.Bytes.Word
import Kotlinize.Proofs.Slice.Tokens

namespace Kotlinize

/-!
# The grammar of string literals

The scan of a string literal keeps a stack of what is open.  Each entry of the stack is closed by a
text of its own, so the texts that close a literal or an expression have a grammar in which the one
stands inside the other.

* `Frame.ClosedBy` — the texts that close a literal or an expression.
* `ClosedAll` — the texts that close all that is open, one after the other.
* `step?_quoted_eq_some_iff`, `step?_expression_eq_some_iff` — what one step of a scan does.
* `closedAll_of_scanFrames?`, `scanFrames?_of_closedBy`, `closedBy_iff` — a scan takes a text if and only if the text closes what is open.
* `tokenizeAt_eq_literal_iff`, `exists_inside_of_mem` — the literals among the texts and among the
  tokens of a text.
-/

variable {c : Char} {as bs cs rest : List Char} {frame : Frame} {skip : Nat}

/-! ### Texts that close a frame -/

namespace Frame

/-- The quotes around a literal. -/
def quotes (multiline : Bool) : List Char := if multiline then ['"', '"', '"'] else ['"']

theorem escape_append_cons (hashes : Nat) (c : Char) (cs : List Char) :
    escape hashes ++ c :: cs = '\\' :: (List.replicate hashes '#' ++ [c]) ++ cs := by
  rw [escape, List.cons_append, List.cons_append, List.append_assoc, List.singleton_append]

/-- A text that closes what is open, and ends where it does: behind the last quotes and hashes of a
    literal, or behind the last parenthesis of an expression. -/
inductive ClosedBy : Frame → List Char → Prop where
  /-- The quotes and hashes at the end of a literal. -/
  | close {hashes : Nat} {multiline : Bool} :
      ClosedBy (quoted hashes multiline) (closing hashes multiline)
  /-- A character of a literal that neither closes it nor starts an escape. -/
  | character {hashes : Nat} {multiline : Bool} {c : Char} {cs : List Char}
      (hline : (isLineEnd c && !multiline) = false)
      (hclose : ¬ closing hashes multiline <+: c :: cs) (hescape : ¬ escape hashes <+: c :: cs)
      (h : ClosedBy (quoted hashes multiline) cs) : ClosedBy (quoted hashes multiline) (c :: cs)
  /-- An escaped character, whatever it is. -/
  | escaped {hashes : Nat} {multiline : Bool} {c : Char} {cs : List Char} (hc : c ≠ '(')
      (h : ClosedBy (quoted hashes multiline) cs) :
      ClosedBy (quoted hashes multiline) (escape hashes ++ c :: cs)
  /-- An interpolated expression. -/
  | interpolated {hashes : Nat} {multiline : Bool} {as bs : List Char}
      (ha : ClosedBy (expression 0) as) (hb : ClosedBy (quoted hashes multiline) bs) :
      ClosedBy (quoted hashes multiline) (escape hashes ++ '(' :: (as ++ bs))
  /-- The parenthesis at the end of an expression. -/
  | parenthesis : ClosedBy (expression 0) [')']
  /-- A parenthesis that opens inside an expression. -/
  | opener {depth : Nat} {cs : List Char} (h : ClosedBy (expression (depth + 1)) cs) :
      ClosedBy (expression depth) ('(' :: cs)
  /-- A parenthesis that closes inside an expression. -/
  | closer {depth : Nat} {cs : List Char} (h : ClosedBy (expression depth) cs) :
      ClosedBy (expression (depth + 1)) (')' :: cs)
  /-- A literal in an expression.  Hashes have no part in it. -/
  | literal {depth : Nat} {multiline : Bool} {as bs : List Char}
      (hquotes : startsMultiline (quotes multiline ++ (as ++ bs)) = multiline)
      (ha : ClosedBy (quoted 0 multiline) as) (hb : ClosedBy (expression depth) bs) :
      ClosedBy (expression depth) (quotes multiline ++ (as ++ bs))
  /-- Any other character of an expression, a hash too. -/
  | other {depth : Nat} {c : Char} {cs : List Char} (hc : c ∉ ['(', ')', '"'])
      (h : ClosedBy (expression depth) cs) : ClosedBy (expression depth) (c :: cs)

variable {hashes : Nat} {multiline : Bool}

theorem isLineEnd_of_mem_escape (h : c ∈ escape hashes) : isLineEnd c = false := by
  rcases List.mem_cons.1 h with rfl | h
  · rfl
  · rw [(List.mem_replicate.1 h).2]
    rfl

theorem isLineEnd_of_mem_closing (h : c ∈ closing hashes multiline) : isLineEnd c = false := by
  rcases List.mem_append.1 h with h | h
  · have hquote : c = '"' := by
      cases multiline <;> simpa using h
    rw [hquote]
    rfl
  · rw [(List.mem_replicate.1 h).2]
    rfl

/-- A text that closes a literal ends in the quotes and hashes that close it. -/
theorem ClosedBy.closing_suffix (h : ClosedBy (quoted hashes multiline) cs) :
    closing hashes multiline <:+ cs := by
  generalize hf : quoted hashes multiline = frame at h
  induction h with
  | close =>
    cases hf
    exact List.suffix_refl _
  | character _ _ _ _ ih => exact (ih hf).trans (List.suffix_cons _ _)
  | escaped _ _ ih =>
    exact (ih hf).trans ((List.suffix_cons _ _).trans (List.suffix_append _ _))
  | interpolated _ _ _ ih =>
    exact (ih hf).trans ((List.suffix_append _ _).trans
      ((List.suffix_cons _ _).trans (List.suffix_append _ _)))
  | _ => cases hf

/-- A text that closes an expression ends in the parenthesis that closes it. -/
theorem ClosedBy.parenthesis_suffix {depth : Nat} (h : ClosedBy (expression depth) cs) :
    [')'] <:+ cs := by
  generalize hf : expression depth = frame at h
  induction h generalizing depth with
  | parenthesis => exact List.suffix_refl _
  | opener _ ih | closer _ ih | other _ _ ih => exact (ih rfl).trans (List.suffix_cons _ _)
  | literal _ _ _ _ ih =>
    exact (ih hf).trans ((List.suffix_append _ _).trans (List.suffix_append _ _))
  | _ => cases hf

end Frame

/-! ### What is open, from the inside outwards -/

/-- A text that closes all that is open, one after the other. -/
inductive ClosedAll : List Frame → List Char → Prop where
  | nil : ClosedAll [] []
  | cons {frame : Frame} {frames : List Frame} {as bs : List Char} (ha : frame.ClosedBy as)
      (hb : ClosedAll frames bs) : ClosedAll (frame :: frames) (as ++ bs)

theorem closedAll_nil_iff : ClosedAll [] cs ↔ cs = [] := by
  constructor
  · rintro ⟨⟩
    rfl
  · rintro rfl
    exact .nil

theorem closedAll_cons_iff {frames : List Frame} :
    ClosedAll (frame :: frames) cs ↔
      ∃ as bs, cs = as ++ bs ∧ frame.ClosedBy as ∧ ClosedAll frames bs := by
  constructor
  · rintro (_ | ⟨ha, hb⟩)
    exact ⟨_, _, rfl, ha, hb⟩
  · rintro ⟨as, bs, rfl, ha, hb⟩
    exact .cons ha hb

theorem closedAll_singleton_iff : ClosedAll [frame] cs ↔ frame.ClosedBy cs := by
  simp [closedAll_cons_iff, closedAll_nil_iff]

/-- The frames on top are closed first, and those below them by what is left. -/
theorem closedAll_append_iff {frames others : List Frame} :
    ClosedAll (frames ++ others) cs ↔
      ∃ as bs, cs = as ++ bs ∧ ClosedAll frames as ∧ ClosedAll others bs := by
  induction frames generalizing cs with
  | nil => simp [closedAll_nil_iff]
  | cons frame frames ih =>
    simp only [List.cons_append, closedAll_cons_iff, ih]
    constructor
    · rintro ⟨xs, _, rfl, hx, ys, zs, rfl, hy, hz⟩
      exact ⟨xs ++ ys, zs, (List.append_assoc ..).symm, ⟨xs, ys, rfl, hx, hy⟩, hz⟩
    · rintro ⟨_, zs, rfl, ⟨xs, ys, rfl, hx, hy⟩, hz⟩
      exact ⟨xs, ys ++ zs, List.append_assoc .., hx, ys, zs, rfl, hy, hz⟩

/-! ### What one step does -/

variable {hashes depth : Nat} {multiline : Bool} {opened : List Frame}

/-- The escape of a literal and the character behind it. -/
theorem eq_of_escape_prefix (h : Frame.escape hashes <+: c :: (as ++ bs))
    (hlen : as.length = hashes + 1) : ∃ d, c :: as = Frame.escape hashes ++ [d] := by
  have hpre : Frame.escape hashes <+: c :: as :=
    List.prefix_of_prefix_length_le h (List.prefix_append (c :: as) bs)
      (by rw [Frame.length_escape, List.length_cons, hlen]; omega)
  obtain ⟨ds, hds⟩ := hpre
  have hone : ds.length = 1 := by
    have hlens := congrArg List.length hds
    rw [List.length_append, Frame.length_escape, List.length_cons, hlen] at hlens
    omega
  obtain ⟨d, rfl⟩ := List.length_eq_one_iff.1 hone
  exact ⟨d, hds.symm⟩

/-- The quotes and hashes that close a literal are taken together. -/
theorem step?_of_closing (h : c :: as = Frame.closing hashes multiline) (bs : List Char) :
    (Frame.quoted hashes multiline).step? c (as ++ bs) = some (as.length, []) := by
  have hprefix : (Frame.closing hashes multiline).isPrefixOf (c :: (as ++ bs)) = true := by
    rw [List.isPrefixOf_iff_prefix, ← List.cons_append, h]
    exact List.prefix_append _ _
  have hline : isLineEnd c = false :=
    Frame.isLineEnd_of_mem_closing (h ▸ List.mem_cons_self)
  rw [Frame.step?, hline, Bool.false_and, if_neg Bool.false_ne_true, if_pos hprefix, ← h,
    List.length_cons, Nat.add_sub_cancel]

/-- An escape is taken with the character behind it, which tells whether an expression starts. -/
theorem step?_of_escape {d : Char} (h : c :: as = Frame.escape hashes ++ [d]) (bs : List Char) :
    (Frame.quoted hashes multiline).step? c (as ++ bs)
      = some (as.length, if d = '(' then [.expression 0, .quoted hashes multiline]
        else [.quoted hashes multiline]) := by
  obtain ⟨rfl, rfl⟩ : c = '\\' ∧ as = List.replicate hashes '#' ++ [d] := List.cons.inj h
  -- A backslash neither ends a line nor closes a literal.
  have hclose : (Frame.closing hashes multiline).isPrefixOf
      ('\\' :: (List.replicate hashes '#' ++ [d] ++ bs)) = false := by
    cases multiline <;> rfl
  have hescape : (Frame.escape hashes).isPrefixOf
      ('\\' :: (List.replicate hashes '#' ++ [d] ++ bs)) = true := by
    rw [List.isPrefixOf_iff_prefix, ← List.cons_append, h, List.append_assoc]
    exact List.prefix_append _ _
  rw [Frame.step?, hclose, hescape]
  by_cases hparen : d = '(' <;> simp [isLineEnd, hparen]

/-- **What one step of a scan does in a literal**: it closes it, starts an expression, takes an
    escaped character, or takes a character as it is. -/
theorem step?_quoted_eq_some_iff :
    (Frame.quoted hashes multiline).step? c (as ++ bs) = some (as.length, opened) ↔
      (opened = [] ∧ c :: as = Frame.closing hashes multiline) ∨
      (opened = [.expression 0, .quoted hashes multiline] ∧
        c :: as = Frame.escape hashes ++ ['(']) ∨
      (opened = [.quoted hashes multiline] ∧ ∃ d ≠ '(', c :: as = Frame.escape hashes ++ [d]) ∨
      (opened = [.quoted hashes multiline] ∧ as = [] ∧ (isLineEnd c && !multiline) = false ∧
        ¬ Frame.closing hashes multiline <+: c :: bs ∧ ¬ Frame.escape hashes <+: c :: bs) := by
  constructor
  · intro h
    have hstep := h
    rw [Frame.step?] at hstep
    split at hstep
    · cases hstep
    rename_i hline
    split at hstep
    · rename_i hclose
      obtain ⟨hlen, rfl⟩ := Prod.mk.inj (Option.some.inj hstep)
      obtain ⟨more, hmore⟩ := List.isPrefixOf_iff_prefix.1 hclose
      refine .inl ⟨rfl, (List.append_inj_left (hmore.trans (List.cons_append ..).symm) ?_).symm⟩
      have hpos := Frame.length_closing hashes multiline
      rw [List.length_cons]
      split at hpos <;> omega
    rename_i hclose
    split at hstep
    · rename_i hescape
      have hlen : as.length = hashes + 1 := by
        split at hstep <;> exact (Prod.mk.inj (Option.some.inj hstep)).1.symm
      obtain ⟨d, hd⟩ := eq_of_escape_prefix (List.isPrefixOf_iff_prefix.1 hescape) hlen
      rw [step?_of_escape hd] at h
      obtain ⟨-, rfl⟩ := Prod.mk.inj (Option.some.inj h)
      by_cases hparen : d = '('
      · exact .inr (.inl ⟨if_pos hparen, hparen ▸ hd⟩)
      · exact .inr (.inr (.inl ⟨if_neg hparen, d, hparen, hd⟩))
    · rename_i hescape
      obtain ⟨hlen, rfl⟩ := Prod.mk.inj (Option.some.inj hstep)
      obtain rfl := List.length_eq_zero_iff.1 hlen.symm
      rw [List.nil_append, List.isPrefixOf_iff_prefix] at hclose hescape
      exact .inr (.inr (.inr ⟨rfl, rfl, Bool.eq_false_iff.2 hline, hclose, hescape⟩))
  · rintro (⟨rfl, hclose⟩ | ⟨rfl, hd⟩ | ⟨rfl, d, hne, hd⟩ | ⟨rfl, rfl, hline, hclose, hescape⟩)
    · exact step?_of_closing hclose bs
    · rw [step?_of_escape hd, if_pos rfl]
    · rw [step?_of_escape hd, if_neg hne]
    · rw [Frame.step?, hline, List.nil_append, if_neg Bool.false_ne_true,
        if_neg (mt List.isPrefixOf_iff_prefix.1 hclose),
        if_neg (mt List.isPrefixOf_iff_prefix.1 hescape), List.length_nil]

/-- **What one step of a scan does in an expression**: it takes a parenthesis, starts a literal,
    or takes a character as it is. -/
theorem step?_expression_eq_some_iff :
    (Frame.expression depth).step? c (as ++ bs) = some (as.length, opened) ↔
      (c = '(' ∧ as = [] ∧ opened = [.expression (depth + 1)]) ∨
      (c = ')' ∧ as = [] ∧ opened = if depth = 0 then [] else [.expression (depth - 1)]) ∨
      (∃ multiline, opened = [.quoted 0 multiline, .expression depth] ∧
        c :: as = Frame.quotes multiline ∧ Frame.startsMultiline (c :: (as ++ bs)) = multiline) ∨
      (c ∉ ['(', ')', '"'] ∧ as = [] ∧ opened = [.expression depth]) := by
  simp only [List.mem_cons, List.not_mem_nil, or_false, not_or]
  constructor
  · intro h
    rw [Frame.step?] at h
    split at h
    · rename_i hc
      obtain ⟨hlen, rfl⟩ := Prod.mk.inj (Option.some.inj h)
      exact .inl ⟨hc, List.length_eq_zero_iff.1 hlen.symm, rfl⟩
    rename_i hopen
    split at h
    · rename_i hc
      refine .inr (.inl ⟨hc, ?_⟩)
      split at h <;> rename_i hdepth <;>
        obtain ⟨hlen, rfl⟩ := Prod.mk.inj (Option.some.inj h)
      · exact ⟨List.length_eq_zero_iff.1 hlen.symm, (if_pos hdepth).symm⟩
      · exact ⟨List.length_eq_zero_iff.1 hlen.symm, (if_neg hdepth).symm⟩
    rename_i hclose
    split at h
    · rename_i hc
      refine .inr (.inr (.inl ?_))
      split at h <;> rename_i hmulti <;>
        obtain ⟨hlen, rfl⟩ := Prod.mk.inj (Option.some.inj h)
      · obtain ⟨more, hmore⟩ := List.isPrefixOf_iff_prefix.1 hmulti
        have heq : ['"', '"', '"'] = c :: as :=
          List.append_inj_left (hmore.trans (List.cons_append ..).symm)
            (congrArg (· + 1) hlen)
        exact ⟨true, rfl, heq.symm, hmulti⟩
      · obtain rfl := List.length_eq_zero_iff.1 hlen.symm
        exact ⟨false, rfl, by rw [hc]; rfl, Bool.eq_false_iff.2 hmulti⟩
    · rename_i hquote
      obtain ⟨hlen, rfl⟩ := Prod.mk.inj (Option.some.inj h)
      exact .inr (.inr (.inr ⟨⟨hopen, hclose, hquote⟩, List.length_eq_zero_iff.1 hlen.symm, rfl⟩))
  · rintro (⟨rfl, rfl, rfl⟩ | ⟨rfl, rfl, rfl⟩ | ⟨multiline, rfl, hquotes, hmulti⟩ |
      ⟨⟨hopen, hclose, hquote⟩, rfl, rfl⟩)
    · rfl
    · rw [Frame.step?, if_neg (by decide), if_pos rfl]
      split <;> rfl
    · cases multiline with
      | false =>
        obtain ⟨rfl, rfl⟩ := List.cons.inj hquotes
        rw [Frame.step?, hmulti]
        rfl
      | true =>
        obtain ⟨rfl, rfl⟩ := List.cons.inj hquotes
        rfl
    · rw [Frame.step?, if_neg hopen, if_neg hclose, if_neg hquote, List.length_nil]

/-- Behind its first quotes a text has to be seen for two characters to tell one quote from
    three. -/
theorem startsMultiline_append (h : 2 ≤ cs.length) (rest : List Char) :
    Frame.startsMultiline (Frame.quotes multiline ++ (cs ++ rest))
      = Frame.startsMultiline (Frame.quotes multiline ++ cs) := by
  have hlen : ['"', '"', '"'].length ≤ (Frame.quotes multiline ++ cs).length := by
    have hpos : 1 ≤ (Frame.quotes multiline).length := by cases multiline <;> decide
    rw [List.length_append]
    simp only [List.length_cons, List.length_nil]
    omega
  rw [← List.append_assoc]
  exact isPrefixOf_append_of_length_le hlen rest

/-- A literal inside an expression is followed by the end of the expression. -/
theorem two_le_length_append (ha : (Frame.quoted hashes multiline).ClosedBy as)
    (hb : (Frame.expression depth).ClosedBy bs) : 2 ≤ (as ++ bs).length := by
  have hclose := ha.closing_suffix.length_le
  have hparen := hb.parenthesis_suffix.length_le
  rw [Frame.length_closing] at hclose
  rw [List.length_append]
  simp only [List.length_cons, List.length_nil] at hparen
  split at hclose <;> omega

/-- **A step is sound.**  What goes together with the first character, and what closes all that is
    open then, closes the frame. -/
theorem closedBy_of_step? {ds : List Char}
    (hstep : frame.step? c (as ++ bs) = some (as.length, opened)) (hpre : ds <+: bs)
    (hopened : ClosedAll opened ds) : frame.ClosedBy (c :: (as ++ ds)) := by
  cases frame with
  | quoted hashes multiline =>
    rcases step?_quoted_eq_some_iff.1 hstep with ⟨rfl, hclose⟩ | ⟨rfl, hparen⟩ |
      ⟨rfl, d, hd, hescape⟩ | ⟨rfl, rfl, hline, hclose, hescape⟩
    · obtain rfl := closedAll_nil_iff.1 hopened
      rw [List.append_nil, hclose]
      exact .close
    · obtain ⟨xs, ys, rfl, hxs, hys⟩ := closedAll_cons_iff.1 hopened
      rw [← List.cons_append, hparen, List.append_assoc, List.singleton_append]
      exact .interpolated hxs (closedAll_singleton_iff.1 hys)
    · rw [← List.cons_append, hescape, List.append_assoc, List.singleton_append]
      exact .escaped hd (closedAll_singleton_iff.1 hopened)
    · have hcons : c :: ds <+: c :: bs := (List.prefix_cons_inj c).2 hpre
      exact .character hline (fun hc => hclose (hc.trans hcons))
        (fun he => hescape (he.trans hcons)) (closedAll_singleton_iff.1 hopened)
  | expression depth =>
    rcases step?_expression_eq_some_iff.1 hstep with ⟨rfl, rfl, rfl⟩ | ⟨rfl, rfl, rfl⟩ |
      ⟨multiline, rfl, hquotes, hmulti⟩ | ⟨hc, rfl, rfl⟩
    · exact .opener (closedAll_singleton_iff.1 hopened)
    · cases depth with
      | zero =>
        obtain rfl := closedAll_nil_iff.1 hopened
        exact .parenthesis
      | succ depth => exact .closer (closedAll_singleton_iff.1 hopened)
    · obtain ⟨xs, ys, rfl, hxs, hys⟩ := closedAll_cons_iff.1 hopened
      replace hys := closedAll_singleton_iff.1 hys
      obtain ⟨more, rfl⟩ := hpre
      rw [← List.cons_append, hquotes]
      refine .literal ?_ hxs hys
      rwa [← startsMultiline_append (two_le_length_append hxs hys) more, ← hquotes]
    · exact .other hc (closedAll_singleton_iff.1 hopened)

/-! ### What a scan takes -/

/-- **A scan is sound.**  Behind what is skipped, it takes a text that closes all that is open. -/
theorem closedAll_of_scanFrames? {frames : List Frame} {k : Cut}
    (h : scanFrames? skip frames cs = some k) : ClosedAll frames (k.text.drop skip) := by
  fun_induction scanFrames? skip frames cs generalizing k with
  | case1 cs =>
    obtain rfl := Option.some.inj h
    exact .nil
  | case2 => cases h
  | case3 skip frames c cs ih =>
    obtain ⟨k', hk', rfl⟩ := Option.map_eq_some_iff.1 h
    exact ih hk'
  | case4 => cases h
  | case5 frame frames c cs skip opened hstep ih =>
    obtain ⟨k', hk', rfl⟩ := Option.map_eq_some_iff.1 h
    obtain ⟨as, bs, htext, rfl⟩ : ∃ as bs, k'.text = as ++ bs ∧ as.length = skip := by
      have hle := length_le_of_scanFrames? hk'
      refine ⟨_, _, (List.take_append_drop skip k'.text).symm, List.length_take_of_le ?_⟩
      omega
    -- What the step opens is closed first, and then the frames that were open below.
    have hopen := ih hk'
    rw [htext, List.drop_left] at hopen
    obtain ⟨ds, es, rfl, hds, hes⟩ := closedAll_append_iff.1 hopen
    rw [← whole_of_scanFrames? hk', Cut.whole, htext, List.append_assoc, List.append_assoc] at hstep
    have hclosed := closedBy_of_step? hstep (List.prefix_append ds _) hds
    show ClosedAll (frame :: frames) (c :: k'.text)
    rw [htext, ← List.append_assoc]
    exact .cons hclosed hes

/-- What is skipped is taken as it is. -/
theorem scanFrames?_skip (frames : List Frame) (as bs : List Char) :
    scanFrames? as.length frames (as ++ bs)
      = (scanFrames? 0 frames bs).map (Cut.append as) := by
  induction as with
  | nil =>
    have hid : Cut.append [] = id := rfl
    rw [hid, Option.map_id]
    rfl
  | cons a as ih =>
    rw [List.length_cons, List.cons_append, scanFrames?, ih, Option.map_map]
    rfl

theorem Cut.append_append (as bs : List Char) (k : Cut) :
    (k.append bs).append as = k.append (as ++ bs) := by
  rw [Cut.append, Cut.append, Cut.append, List.append_assoc]

/-- A scan takes what goes together with the first character, and then what closes all that is open
    then. -/
theorem scanFrames?_of_step? {frames : List Frame} {ds : List Char} {k : Cut}
    (hstep : frame.step? c (as ++ (ds ++ rest)) = some (as.length, opened))
    (h : scanFrames? 0 (opened ++ frames) (ds ++ rest) = some (k.append ds)) :
    scanFrames? 0 (frame :: frames) (c :: as ++ ds ++ rest) = some (k.append (c :: as ++ ds)) := by
  rw [List.append_assoc, List.cons_append, scanFrames?, hstep]
  dsimp only
  rw [scanFrames?_skip, h, Option.map_some, Option.map_some, Cut.append_append]
  rfl

/-- **A scan is complete.**  It takes a text that closes the innermost frame, whatever follows, and
    goes on behind it. -/
theorem scanFrames?_of_closedBy (h : frame.ClosedBy cs) {frames : List Frame} {k : Cut}
    (hk : scanFrames? 0 frames rest = some k) :
    scanFrames? 0 (frame :: frames) (cs ++ rest) = some (k.append cs) := by
  induction h generalizing frames rest k with
  | @close hashes multiline =>
    obtain ⟨as, has⟩ : ∃ as, '"' :: as = Frame.closing hashes multiline := by
      cases multiline <;> exact ⟨_, rfl⟩
    have hnil : scanFrames? 0 ([] ++ frames) ([] ++ rest) = some (k.append []) := hk
    have hall := scanFrames?_of_step? (step?_quoted_eq_some_iff.2 (.inl ⟨rfl, has⟩)) hnil
    rwa [List.append_nil, has] at hall
  | @character hashes multiline c cs hline hclose hescape h ih =>
    -- What closes the literal is still to come, and no test looks further than that.
    have hshort {op : List Char} (hop : op.length ≤ (Frame.closing hashes multiline).length)
        (hpre : op <+: c :: (cs ++ rest)) : op <+: c :: cs :=
      List.prefix_of_prefix_length_le hpre (List.prefix_append (c :: cs) rest)
        ((hop.trans h.closing_suffix.length_le).trans (Nat.le_succ _))
    have hescapeLen : (Frame.escape hashes).length ≤ (Frame.closing hashes multiline).length := by
      rw [Frame.length_escape, Frame.length_closing]
      split <;> omega
    exact scanFrames?_of_step? (step?_quoted_eq_some_iff.2 (.inr (.inr (.inr ⟨rfl, rfl, hline,
      fun hc => hclose (hshort le_rfl hc), fun he => hescape (hshort hescapeLen he)⟩)))) (ih hk)
  | @escaped hashes multiline d cs hd h ih =>
    rw [Frame.escape_append_cons]
    exact scanFrames?_of_step?
      (step?_quoted_eq_some_iff.2 (.inr (.inr (.inl ⟨rfl, d, hd, rfl⟩)))) (ih hk)
  | @interpolated hashes multiline as bs ha hb iha ihb =>
    have hinside := iha (ihb hk)
    rw [← List.append_assoc, Cut.append_append] at hinside
    rw [Frame.escape_append_cons]
    exact scanFrames?_of_step? (step?_quoted_eq_some_iff.2 (.inr (.inl ⟨rfl, rfl⟩))) hinside
  | parenthesis =>
    exact scanFrames?_of_step?
      (step?_expression_eq_some_iff.2 (.inr (.inl ⟨rfl, rfl, (if_pos rfl).symm⟩))) hk
  | opener h ih =>
    exact scanFrames?_of_step? (step?_expression_eq_some_iff.2 (.inl ⟨rfl, rfl, rfl⟩)) (ih hk)
  | closer h ih =>
    exact scanFrames?_of_step? (step?_expression_eq_some_iff.2
      (.inr (.inl ⟨rfl, rfl, (if_neg (Nat.succ_ne_zero _)).symm⟩))) (ih hk)
  | @literal depth multiline as bs hquotes ha hb iha ihb =>
    obtain ⟨more, hmore⟩ : ∃ more, '"' :: more = Frame.quotes multiline := by
      cases multiline <;> exact ⟨_, rfl⟩
    have hmulti : Frame.startsMultiline ('"' :: (more ++ (as ++ bs ++ rest))) = multiline := by
      rw [← List.cons_append, hmore, startsMultiline_append (two_le_length_append ha hb), hquotes]
    have hinside := iha (ihb hk)
    rw [← List.append_assoc, Cut.append_append] at hinside
    rw [← hmore]
    exact scanFrames?_of_step? (step?_expression_eq_some_iff.2
      (.inr (.inr (.inl ⟨multiline, rfl, hmore, hmulti⟩)))) hinside
  | other hc h ih =>
    exact scanFrames?_of_step?
      (step?_expression_eq_some_iff.2 (.inr (.inr (.inr ⟨hc, rfl, rfl⟩)))) (ih hk)

/-- **A scan takes a text if and only if the text closes what is open.** -/
theorem closedBy_iff :
    scanFrames? 0 [frame] (cs ++ rest) = some ⟨cs, rest⟩ ↔ frame.ClosedBy cs := by
  constructor
  · intro h
    exact closedAll_singleton_iff.1 (closedAll_of_scanFrames? h)
  · intro h
    have hnil : scanFrames? 0 [] rest = some ⟨[], rest⟩ := by
      rw [scanFrames?]
    have hall := scanFrames?_of_closedBy h hnil
    rwa [Cut.append, List.append_nil] at hall

/-! ### Literals -/

/-- A literal is its hashes and its first quotes, and what closes it behind them. -/
theorem stringLiteral?_opening
    (hopen : c :: as = List.replicate hashes '#' ++ Frame.quotes multiline)
    (hmulti : Frame.startsMultiline (Frame.quotes multiline ++ bs) = multiline) :
    stringLiteral? hashes c (as ++ bs)
      = (scanFrames? 0 [.quoted hashes multiline] bs).map (Cut.append as) := by
  have hdrop : (c :: (as ++ bs)).drop hashes = Frame.quotes multiline ++ bs := by
    rw [← List.cons_append, hopen, List.append_assoc, List.drop_left' List.length_replicate]
  have hlen : as.length = if multiline then hashes + 2 else hashes := by
    have hlens := congrArg List.length hopen
    rw [List.length_append, List.length_replicate, List.length_cons] at hlens
    cases multiline <;> exact Nat.succ.inj hlens
  have hskip (skip : Nat) (hs : as.length = skip) :
      scanFrames? skip [.quoted hashes multiline] (as ++ bs)
        = (scanFrames? 0 [.quoted hashes multiline] bs).map (Cut.append as) := by
    subst hs
    exact scanFrames?_skip _ as bs
  rw [stringLiteral?, hdrop, hmulti]
  cases multiline with
  | false => exact hskip hashes hlen
  | true => exact hskip (hashes + 2) hlen

theorem exists_cons_opening (hashes : Nat) (multiline : Bool) :
    ∃ c as, c :: as = List.replicate hashes '#' ++ Frame.quotes multiline := by
  have hne : List.replicate hashes '#' ++ Frame.quotes multiline ≠ [] := by
    cases multiline <;> simp [Frame.quotes]
  obtain ⟨c, as, has⟩ := List.exists_cons_of_ne_nil hne
  exact ⟨c, as, has.symm⟩

/-- A literal starts with some hashes, and with one quote or three. -/
theorem exists_opening (h : Lexeme.literalHashes? (c :: cs) = some hashes) :
    ∃ multiline as bs, cs = as ++ bs ∧
      c :: as = List.replicate hashes '#' ++ Frame.quotes multiline ∧
      Frame.startsMultiline (Frame.quotes multiline ++ bs) = multiline := by
  obtain ⟨more, hmore⟩ := literalHashes?_eq_some_iff.1 h
  rw [List.append_assoc, List.singleton_append] at hmore
  obtain ⟨multiline, bs, hbs, hmulti⟩ : ∃ multiline bs, '"' :: more = Frame.quotes multiline ++ bs ∧
      Frame.startsMultiline (Frame.quotes multiline ++ bs) = multiline := by
    cases hm : Frame.startsMultiline ('"' :: more) with
    | false => exact ⟨false, more, rfl, hm⟩
    | true =>
      obtain ⟨bs, hbs⟩ := List.isPrefixOf_iff_prefix.1 hm
      exact ⟨true, bs, hbs.symm, rfl⟩
  obtain ⟨as, has⟩ : ∃ as, c :: as = List.replicate hashes '#' ++ Frame.quotes multiline := by
    obtain ⟨d, as, has⟩ := exists_cons_opening hashes multiline
    rw [hbs, ← List.append_assoc, ← has] at hmore
    obtain ⟨rfl, -⟩ := List.cons.inj hmore
    exact ⟨as, has⟩
  refine ⟨multiline, as, bs, ?_, has, hmulti⟩
  rw [hbs, ← List.append_assoc, ← has] at hmore
  exact (List.cons.inj hmore).2.symm

/-- A lexeme that is a literal is read as one. -/
theorem stringLiteral?_of_next {l : Lexeme} (h : Lexeme.next c cs = .ok l)
    (hkind : l.kind = .stringLiteral) :
    ∃ hashes, Lexeme.literalHashes? (c :: cs) = some hashes ∧
      stringLiteral? hashes c cs = some l.more := by
  have hr := reading_next c cs
  rw [h] at hr
  generalize hl : (Except.ok l : Except Fault Lexeme) = r at hr
  cases hr with
  | literal hashes hh =>
    obtain ⟨k, hk, rfl⟩ := eq_of_orFault hl
    exact ⟨hashes, hh, hk⟩
  | word hn =>
    obtain rfl := Except.ok.inj hl
    rcases wordKind_eq (c :: (word cs).text) with hword | hword <;>
      rw [hword] at hkind <;> cases hkind
  | blockComment | escaped =>
    obtain ⟨k, -, rfl⟩ := eq_of_orFault hl
    cases hkind
  | unexpected => cases hl
  | _ =>
    obtain rfl := Except.ok.inj hl
    cases hkind

/-- A lexeme that is a literal is some hashes, one quote or three, and a text that closes what
    these open. -/
theorem exists_inside_of_next {l : Lexeme} (h : Lexeme.next c cs = .ok l)
    (hkind : l.kind = .stringLiteral) :
    ∃ hashes multiline inside,
      l.text c = List.replicate hashes '#' ++ (Frame.quotes multiline ++ inside) ∧
      Frame.startsMultiline (Frame.quotes multiline ++ (inside ++ l.rest)) = multiline ∧
      (Frame.quoted hashes multiline).ClosedBy inside := by
  obtain ⟨hashes, hh, hk⟩ := stringLiteral?_of_next h hkind
  obtain ⟨multiline, as, bs, rfl, hopen, hmulti⟩ := exists_opening hh
  rw [stringLiteral?_opening hopen hmulti] at hk
  obtain ⟨k, hk, hmore⟩ := Option.map_eq_some_iff.1 hk
  refine ⟨hashes, multiline, k.text, ?_, ?_,
    closedAll_singleton_iff.1 (closedAll_of_scanFrames? hk)⟩
  · rw [Lexeme.text, ← hmore, ← List.append_assoc, ← hopen]
    rfl
  · have hrest : k.text ++ l.rest = bs := by
      rw [Lexeme.rest, ← hmore]
      exact whole_of_scanFrames? hk
    rwa [hrest]

/-- **The literals of the language.**  A text is one string literal if and only if it is some
    hashes, one quote or three, and a text that closes what these open. -/
theorem tokenizeAt_eq_literal_iff {pos : Position} :
    tokenizeAt pos cs = .ok [⟨.stringLiteral, String.ofList cs, pos⟩] ↔
      ∃ hashes multiline inside,
        cs = List.replicate hashes '#' ++ (Frame.quotes multiline ++ inside) ∧
        Frame.startsMultiline (Frame.quotes multiline ++ inside) = multiline ∧
        (Frame.quoted hashes multiline).ClosedBy inside := by
  constructor
  · intro h
    cases cs with
    | nil => simp [tokenizeAt] at h
    | cons c cs =>
      obtain ⟨l, us, hl, hus, hts⟩ := tokenizeAt_cons_eq_ok.1 h
      obtain ⟨ht, rfl⟩ := List.cons.inj hts
      have hrest : l.rest = [] := (spelling_of_tokenizeAt hus).symm
      have htext : l.text c = c :: cs := by
        rw [← Lexeme.text_append_rest_of_next hl, hrest, List.append_nil]
      have hparts := exists_inside_of_next hl (congrArg Token.kind ht).symm
      simpa only [hrest, htext, List.append_nil] using hparts
  · rintro ⟨hashes, multiline, inside, rfl, hmulti, hclose⟩
    obtain ⟨c, as, hopen⟩ := exists_cons_opening hashes multiline
    have hh : Lexeme.literalHashes? (c :: (as ++ inside)) = some hashes := by
      rw [literalHashes?_eq_some_iff, ← List.cons_append, hopen]
      have hquote : ['"'] <+: Frame.quotes multiline := by
        cases multiline <;> exact List.prefix_append ['"'] _
      exact ((List.prefix_append_right_inj _).2 hquote).trans (List.prefix_append _ _)
    have hk : stringLiteral? hashes c (as ++ inside) = some ⟨as ++ inside, []⟩ := by
      have hscan : scanFrames? 0 [.quoted hashes multiline] (inside ++ []) = some ⟨inside, []⟩ :=
        closedBy_iff.2 hclose
      rw [List.append_nil] at hscan
      rw [stringLiteral?_opening hopen hmulti, hscan]
      rfl
    have hl := (Reading.literal hashes hh).next_eq
    rw [hk] at hl
    rw [← List.append_assoc, ← hopen, List.cons_append]
    exact tokenizeAt_cons_eq_ok.2 ⟨_, [], hl, tokenizeAt_nil _, rfl⟩

/-- The literals among the tokens of a text are literals by themselves. -/
theorem exists_inside_of_mem {source : String} {ts : List Token} {t : Token}
    (h : tokenize source = .ok ts) (ht : t ∈ ts) (hkind : t.kind = .stringLiteral) :
    ∃ hashes multiline inside,
      t.text.toList = List.replicate hashes '#' ++ (Frame.quotes multiline ++ inside) ∧
      Frame.startsMultiline (Frame.quotes multiline ++ inside) = multiline ∧
      (Frame.quoted hashes multiline).ClosedBy inside := by
  obtain ⟨before, after, rfl⟩ := List.append_of_mem ht
  have hone : tokenizeAt t.pos t.text.toList
      = .ok [⟨.stringLiteral, String.ofList t.text.toList, t.pos⟩] := by
    rw [String.ofList_toList, ← hkind]
    exact (tokenizeAt_singleton h).2
  exact tokenizeAt_eq_literal_iff.1 hone

end Kotlinize
