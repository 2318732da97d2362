import Kotlinize.Proofs.Slice.Tokens

namespace Kotlinize

/-!
# Where a text fails

A text that does not fall into tokens fails at one place.  What stands in front of that place
falls into tokens by itself, and what stands behind it starts with what the fault names: an open
literal, an open comment, an open name in backticks, or a control character.

* `isForbidden`, `Fault.StartsAt` — what a text starts with where it fails.
* `Lexeme.startsAt_of_next` — a lexeme fails only there, one case for each reading.
* `exists_startsAt_of_tokenize` — the place where a text fails.
* `tokenize_fails_only_at_fault` — hence which texts do not fail.
-/

/-! ### Faults -/

/-- An ASCII control character other than tab, line feed and carriage return. -/
def isForbidden (c : Char) : Bool :=
  (decide (c.toNat < 0x20) || c.toNat == 0x7f) && !isBlank c && !isLineEnd c

/-- What the text starts with at the place of a fault. -/
inductive Fault.StartsAt : Fault → List Char → Prop where
  /-- Some hashes, if any, and a quote. -/
  | string (hashes : Nat) (more : List Char) :
      StartsAt .unterminatedString (List.replicate hashes '#' ++ '"' :: more)
  /-- The opening of a block comment. -/
  | comment (more : List Char) : StartsAt .unterminatedComment ('/' :: '*' :: more)
  /-- A backtick without a second one on the same line. -/
  | escaped (more : List Char) (h : '\x60' ∉ more.takeWhile fun c => !isLineEnd c) :
      StartsAt (.unexpectedCharacter '\x60') ('\x60' :: more)
  /-- The control character that is named. -/
  | control (c : Char) (more : List Char) (h : isForbidden c = true) :
      StartsAt (.unexpectedCharacter c) (c :: more)

theorem Fault.StartsAt.ne_nil {fault : Fault} {cs : List Char} (h : fault.StartsAt cs) :
    cs ≠ [] := by
  cases h <;> simp

/-- A lexeme that may lack its end is not read where the end is not found. -/
theorem eq_none_of_orFault {fault fault' : Fault} {kind : TokenKind} {k? : Option Cut}
    (h : .error fault = Lexeme.orFault fault' kind k?) : k? = none ∧ fault = fault' := by
  cases k? with
  | none => exact ⟨rfl, Except.error.inj h⟩
  | some k => simp [Lexeme.orFault] at h

/-- A name in backticks has no end if no backtick follows on its line. -/
theorem escapedName?_eq_none_iff {cs : List Char} :
    escapedName? cs = none ↔ '\x60' ∉ cs.takeWhile fun c => !isLineEnd c := by
  induction cs with
  | nil => simp [escapedName?]
  | cons c cs ih =>
    rw [escapedName?]
    split
    · rename_i hc
      subst hc
      simp [isLineEnd]
    · rename_i hc
      split
      · rename_i hl
        simp [hl]
      · rename_i hl
        simp [hl, ih, Ne.symm hc]

/-- What starts no lexeme and is no marker is a control character. -/
theorem isForbidden_of_unexpected {c : Char} (hl : isLineEnd c = false) (hw : isBlank c = false)
    (hv : isVisible c = false) (hn : isNameStart c = false) : isForbidden c = true := by
  have hspace : c.toNat ≠ 0x20 := by
    intro hc
    have : c = ' ' := Char.toNat_inj.1 hc
    simp [isBlank, this] at hw
  simp only [isVisible, Bool.and_eq_false_iff, decide_eq_false_iff_not] at hv
  simp only [isNameStart, Bool.or_eq_false_iff, decide_eq_false_iff_not] at hn
  simp only [isForbidden, hl, hw, Bool.not_false, Bool.and_true, Bool.or_eq_true,
    decide_eq_true_eq, beq_iff_eq]
  omega

/-- **A lexeme fails only where its fault says.** -/
theorem Lexeme.startsAt_of_next {c : Char} {cs : List Char} {fault : Fault}
    (h : Lexeme.next c cs = .error fault) : fault.StartsAt (c :: cs) := by
  have hr := reading_next c cs
  rw [h] at hr
  generalize hf : (Except.error fault : Except Fault Lexeme) = r at hr
  cases hr with
  | blockComment hc hs =>
    obtain ⟨-, rfl⟩ := eq_none_of_orFault hf
    obtain ⟨more, rfl⟩ := List.head?_eq_some_iff.1 hs
    exact hc ▸ .comment more
  | escaped hc =>
    obtain ⟨hnone, rfl⟩ := eq_none_of_orFault hf
    subst hc
    exact .escaped cs (escapedName?_eq_none_iff.1 hnone)
  | literal hashes hh =>
    obtain ⟨-, rfl⟩ := eq_none_of_orFault hf
    obtain ⟨more, hmore⟩ := literalHashes?_eq_some_iff.1 hh
    rw [← hmore, List.append_assoc]
    exact .string hashes more
  | unexpected hl hw hv hn =>
    obtain rfl := Except.error.inj hf
    exact .control c cs (isForbidden_of_unexpected hl hw hv hn)
  | _ => simp at hf

/-! ### Texts -/

/-- A text that does not fall into tokens, cut at the place where it fails. -/
theorem exists_startsAt_of_tokenize {source : String} {e : LexError}
    (h : tokenize source = .error e) :
    ∃ front back ts, dropMark source.toList = front ++ back ∧ e.fault.StartsAt back ∧
      tokenizeAt .start front = .ok ts ∧ e.pos = Position.start.behind ts := by
  obtain ⟨ts, c, rest, hsplit, hts, hfault, hpos⟩ := tokenizeAt_eq_error h
  exact ⟨spelling ts, c :: rest, ts, hsplit, Lexeme.startsAt_of_next hfault, hts, hpos⟩

/-- **Cutting a text into tokens fails only where it says.**  The text, its byte order mark
    apart, falls into two parts: the first one falls into tokens by itself, the place of the error
    is the place behind these tokens, and the second one starts with what the fault names.  Hence
    a text without quotes, backticks, openings of block comments and control characters other
    than tabs and line ends falls into tokens. -/
theorem tokenize_fails_only_at_fault :
    (∀ (source : String) (e : LexError), tokenize source = .error e →
      ∃ front back ts, dropMark source.toList = front ++ back ∧ back ≠ [] ∧
        e.fault.StartsAt back ∧ tokenizeAt .start front = .ok ts ∧
        (front.head? ≠ some '\ufeff' → tokenize (String.ofList front) = .ok ts) ∧
        e.pos = Position.start.behind ts) ∧
    ∀ source : String, '"' ∉ source.toList → '\x60' ∉ source.toList →
      ¬ ['/', '*'] <:+: source.toList → (∀ c ∈ source.toList, isForbidden c = false) →
      ∃ ts, tokenize source = .ok ts := by
  constructor
  · intro source e h
    obtain ⟨front, back, ts, hsplit, hstarts, hts, hpos⟩ := exists_startsAt_of_tokenize h
    refine ⟨front, back, ts, hsplit, hstarts.ne_nil, hstarts, hts, fun hmark => ?_, hpos⟩
    rwa [tokenize, String.toList_ofList, dropMark_eq_self hmark]
  · intro source hquote htick hcomment hcontrol
    cases h : tokenize source with
    | ok ts => exact ⟨ts, rfl⟩
    | error e =>
      obtain ⟨front, back, ts, hsplit, hstarts, -, -⟩ := exists_startsAt_of_tokenize h
      have hback : back <:+ source.toList :=
        (List.suffix_append front back).trans (hsplit ▸ dropMark_suffix source.toList)
      -- Each fault starts with something that the text does not hold.
      generalize e.fault = fault at hstarts
      cases hstarts with
      | string hashes more => exact absurd (hback.subset (by simp)) hquote
      | comment more =>
        have hopening : ['/', '*'] <:+: '/' :: '*' :: more := ⟨[], more, rfl⟩
        exact absurd (hopening.trans hback.isInfix) hcomment
      | escaped more => exact absurd (hback.subset (by simp)) htick
      | control c more hc =>
        have hfree := hcontrol c (hback.subset (by simp))
        simp [hc] at hfree

/-- A literal with a hash that is not closed, and a text with slashes and stars apart. -/
theorem tokenize_fails_only_at_fault_open_literal :
    tokenize "a+#\"b" = .error ⟨.unterminatedString, ⟨1, 3⟩⟩ ∧
      (∃ front back ts, dropMark "a+#\"b".toList = front ++ back ∧
        Fault.StartsAt .unterminatedString back ∧ tokenizeAt .start front = .ok ts ∧
        ⟨1, 3⟩ = Position.start.behind ts) ∧
      ∃ ts, tokenize "a* /b" = .ok ts := by
  have h : tokenize "a+#\"b" = .error ⟨.unterminatedString, ⟨1, 3⟩⟩ := by
    cbv
  obtain ⟨front, back, ts, hsplit, -, hstarts, hts, -, hpos⟩ :=
    tokenize_fails_only_at_fault.1 _ _ h
  have hcontrol : ("a* /b".toList.all fun c => !isForbidden c) = true := by decide
  exact ⟨h, ⟨front, back, ts, hsplit, hstarts, hts, hpos⟩,
    tokenize_fails_only_at_fault.2 _ (by decide) (by decide) (by decide) fun c hc => by
      simpa using List.all_eq_true.1 hcontrol c hc⟩

end Kotlinize
