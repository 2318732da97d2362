import Kotlinize.Proofs.Comment.LineComment

namespace Kotlinize

/-!
# Edits and line comments

No edit but that of a return arrow moves code into a line comment.  For each rewrite, what can be
read from the rewritten construct on can be read after the edit, whatever state the text in front
of it is left in.

* `isSome_readComments_unclosed` — the line end in front of a closing brace goes only where the
  line ends behind the brace.
* `isSome_readComments_restricted` — the line of a setter starts with a line end.
* `Rewrite.lineCommentsClose` — every rewrite but one keeps the property.
-/

variable {config : Config} {stage : Stage} {inside : Bool}

/-! ### The parts of an edit -/

/-- Whitespace leaves the reading where it is. -/
theorem readComments_whitespace {t : Token} (h : t.isWhitespace = true) (ts : List Token) :
    readComments inside (t :: ts) = readComments inside ts := by
  rw [readComments_cons, commentStep_of_isWhitespace h]
  rfl

theorem readComments_gapBefore (us ts : List Token) :
    readComments inside (gapBefore us ++ ts) = readComments inside ts := by
  rcases gapBefore_eq us with h | h <;> rw [h]
  · rfl
  · exact readComments_whitespace Token.isWhitespace_space ts

theorem readComments_gapAfter (us ts : List Token) :
    readComments inside (gapAfter us ++ ts) = readComments inside ts := by
  rcases gapAfter_eq us with h | h <;> rw [h]
  · rfl
  · exact readComments_whitespace Token.isWhitespace_space ts

/-- Spacing out of a comment stays out of it. -/
theorem readComments_spacing {ts : List Token} (h : ∀ t ∈ ts, t.isSpacing = true)
    (us : List Token) : readComments false (ts ++ us) = readComments false us := by
  induction ts with
  | nil => rfl
  | cons t ts ih =>
    rw [List.cons_append, readComments_cons, commentStep_of_isSpacing (h t List.mem_cons_self)]
    exact ih fun u hu => h u (List.mem_cons_of_mem _ hu)

/-- Whitespace at the end of a text leaves the reading where it is. -/
theorem readComments_dropEndIf_isWhitespace (ts : List Token) :
    readComments inside (dropEndIf Token.isWhitespace ts) = readComments inside ts := by
  rcases dropEndIf_eq Token.isWhitespace ts with h | ⟨t, ht, h⟩
  · rw [h]
  · conv => rhs; rw [h]
    rw [readComments_append]
    have hw : ∀ i, readComments i [t] = some i := fun i => readComments_whitespace ht []
    simp [hw]

theorem readComments_openGetter (body : List Token) :
    readComments inside (openGetter body) = readComments inside body := by
  unfold openGetter
  split
  · rfl
  · rename_i a h
    obtain ⟨hbody, hword⟩ := of_accessorAt? h
    have ht := isTrivia_of_is hword (by decide) (by decide) (by decide)
    rw [← hbody, Accessor.whole, List.append_assoc, readComments_append, readComments_append]
    congr
    funext inside'
    rw [readComments_gapAfter, readComments_code ht, readComments_code ht]
    rfl

theorem readComments_openSetter (body : List Token) :
    readComments inside (openSetter config body) = readComments inside body := by
  unfold openSetter
  split
  · rfl
  · rename_i a h
    split
    · obtain ⟨hbody, hword⟩ := of_accessorAt? h
      have ht := isTrivia_of_is hword (by decide) (by decide) (by decide)
      rw [← hbody, Accessor.whole, readComments_append, readComments_append]
      congr
      funext inside'
      rw [readComments_code ht, readComments_code ht]
      rfl
    · rfl

/-- The inside of a body can be read without its closing brace, if it can be read up to it.
    The line in front of the brace goes only where the line behind it ends. -/
theorem isSome_readComments_unclosed {within tail : List Token}
    (hw : readComments inside within = some false)
    (ht : (readComments false tail).isSome = true) :
    (readComments inside (unclosed within tail ++ tail)).isSome = true := by
  have htrim : readComments inside (dropEndIf Token.isWhitespace within) = some false := by
    rw [readComments_dropEndIf_isWhitespace, hw]
  unfold unclosed
  dsimp only
  rw [readComments_append]
  split
  · rename_i he
    rcases dropEndIf_eq Token.isLinebreak (dropEndIf Token.isWhitespace within)
      with h | ⟨t, hl, h⟩
    · rw [h, htrim]
      exact ht
    · -- Without the line end the body may stop inside a comment, and then the line ends behind it.
      rw [h] at htrim
      obtain ⟨inside', hr, -⟩ := readComments_append_eq_some_iff.1 htrim
      rw [hr]
      cases inside'
      · exact ht
      · exact isSome_readComments_true_iff.2 ⟨he, ht⟩
  · rw [htrim]
    exact ht

/-- The text up to a code token can be read, and that behind the token. -/
theorem readComments_append_code {as : List Token} {t : Token} {bs : List Token}
    (ht : t.isTrivia = false) :
    (readComments inside (as ++ t :: bs)).isSome = true
      ↔ readComments inside as = some false ∧ (readComments false bs).isSome = true := by
  rw [isSome_readComments_append_iff]
  constructor
  · rintro ⟨i, ha, hb⟩
    rw [readComments_code ht] at hb
    cases i with
    | true => cases hb
    | false => exact ⟨ha, hb⟩
  · rintro ⟨ha, hb⟩
    refine ⟨false, ha, ?_⟩
    rw [readComments_code ht]
    exact hb

/-! ### One rewrite

Each lemma is about the text from the rewritten construct on, read from any state. -/

/-- What can be read in place of a text behind any state can be read there behind any text. -/
theorem isSome_readComments_append_left {as bs : List Token} (pre : List Token)
    (h : ∀ i, (readComments i as).isSome = true → (readComments i bs).isSome = true)
    (ha : (readComments inside (pre ++ as)).isSome = true) :
    (readComments inside (pre ++ bs)).isSome = true := by
  obtain ⟨i, hp, hi⟩ := isSome_readComments_append_iff.1 ha
  exact isSome_readComments_append_iff.2 ⟨i, hp, h i hi⟩

theorem readComments_equalsSign (written ts : List Token) :
    readComments inside (equalsSign written ts ++ ts)
      = readComments inside (Token.symbol "=" :: ts) := by
  have hs : (Token.symbol "=").isTrivia = false := rfl
  unfold equalsSign
  rw [List.append_assoc, List.cons_append]
  have htail : readComments inside (Token.symbol "=" :: (gapBefore ts ++ ts))
      = readComments inside (Token.symbol "=" :: ts) := by
    rw [readComments_code hs, readComments_code hs, readComments_gapBefore]
  split
  · rw [List.singleton_append, readComments_whitespace Token.isWhitespace_space, htail]
  · exact htail

theorem isSome_readComments_unlabelled {parameter bare : List Token} (post : List Token)
    (h : unlabelled? parameter = some bare)
    (hp : (readComments inside (parameter ++ post)).isSome = true) :
    (readComments inside (bare ++ post)).isSome = true := by
  obtain ⟨trivia, label, spacing, rest, rfl, rfl, -, hl, hs, -⟩ := unlabelled?_eq_some h
  rw [List.append_assoc, List.cons_append,
    readComments_append_code (isTrivia_of_isLabel hl), List.append_assoc,
    readComments_spacing hs] at hp
  rw [List.append_assoc, readComments_append, hp.1]
  exact hp.2

theorem isSome_readComments_suffixed {keyword keyword' : Token} {ts edited : List Token}
    (h : suffixed? config keyword ts = some (keyword', edited))
    (ht : (readComments inside ts).isSome = true) :
    (readComments inside edited).isSome = true := by
  obtain ⟨p, hp, hform⟩ := suffixed?_eq_some h
  have ho := isTrivia_of_opens (opens_of_propertyBody? hp)
  have hc := isTrivia_of_closes (closes_of_propertyBody? hp)
  -- A brace is code, so no comment reaches up to it: the lead ends outside of one.
  rw [← whole_of_propertyBody? hp, PropertyBody.whole, readComments_append_code ho] at ht
  obtain ⟨hlead, hbody⟩ := ht
  rcases hform with ⟨-, -, rfl⟩ | ⟨_, -, -, rfl⟩
  · rw [PropertyBody.withGetter, List.append_assoc, readComments_append, hlead]
    show (readComments false (gapAfter p.lead ++ _)).isSome = true
    have hget : (Token.identifier "get").isTrivia = false := rfl
    rw [readComments_gapAfter, readComments_code hget]
    -- The empty parentheses and the space are read, and then the brace.
    show (readComments false (p.opener :: p.enclosed.whole)).isSome = true
    rw [readComments_code ho]
    exact hbody
  · -- The closing brace is code as well, so the inside ends outside of a comment.
    rw [Enclosed.whole, readComments_append_code hc] at hbody
    have hclosed := isSome_readComments_unclosed hbody.1 hbody.2
    rw [PropertyBody.withoutBraces, readComments_append, readComments_dropEndIf_isWhitespace,
      hlead]
    show (readComments false (openGetter _ ++ _)).isSome = true
    rw [readComments_append] at hclosed
    rw [readComments_append, readComments_openGetter, readComments_openSetter]
    exact hclosed

theorem isSome_readComments_restricted {modifier : Token} {ts line after : List Token}
    (head? : Option Token) (hm : modifier.isKeyword = true)
    (hr : restricted? ts = some (line ++ after)) (ha : after.head?.all Token.isLinebreak = true)
    (h : (readComments inside (modifier :: ts)).isSome = true) :
    (readComments inside (line ++ (setterLine config head? modifier after ++ after))).isSome
      = true := by
  obtain ⟨before, opener, word, closer, behind, rfl, hb, ho, hw, hc, hs, -⟩ :=
    restricted?_eq_some hr
  -- From the modifier to the parenthesis all is code and spacing.
  have hword := isTrivia_of_is hw (by decide) (by decide) (by decide)
  have hmod := isTrivia_of_isKeyword hm
  rw [readComments_code hmod] at h
  cases inside with
  | true => cases h
  | false =>
    rw [if_neg Bool.false_ne_true, readComments_spacing hb,
      readComments_code (isTrivia_of_opens ho), if_neg Bool.false_ne_true,
      readComments_code hword, if_neg Bool.false_ne_true,
      readComments_code (isTrivia_of_closes hc), if_neg Bool.false_ne_true,
      readComments_spacing hs] at h
    obtain ⟨inside', hl, h⟩ := isSome_readComments_append_iff.1 h
    refine isSome_readComments_append_iff.2 ⟨inside', hl, ?_⟩
    -- What follows the line can be read out of a comment too.
    have hafter : (readComments false after).isSome = true := by
      cases inside'
      · exact h
      · exact (isSome_readComments_true_iff.1 h).2
    have hbreak := isLinebreak_lineEnd ha
    unfold setterLine
    rw [List.cons_append, readComments_cons, commentStep_of_isLinebreak hbreak]
    show (readComments false (modifier :: Token.space :: Token.identifier "set" :: after)).isSome
      = true
    rw [readComments_code hmod]
    exact hafter

theorem isSome_readComments_unmarked {ts us : List Token} (h : unmarked? ts = some us)
    (ht : (readComments inside ts).isSome = true) : (readComments inside us).isSome = true := by
  obtain ⟨n, type, mark, rest, -, rfl, rfl, -, -, hm⟩ := unmarked?_eq_some h
  have hmark := isTrivia_of_is hm (by decide) (by decide) (by decide)
  rw [← List.append_assoc, readComments_append_code hmark] at ht
  rw [← List.append_assoc, readComments_append, ht.1]
  exact ht.2

/-- **A rewrite moves no code into a line comment**, unless it is that of a return arrow. -/
theorem Rewrite.lineCommentsClose {as bs : List Token} (hs : stage ≠ .returnArrows)
    (h : Rewrite config stage as bs) (ha : LineCommentsClose as) : LineCommentsClose bs := by
  rw [lineCommentsClose_iff_readComments] at ha ⊢
  cases h with
  | nameArgument pre colon post hc =>
    refine isSome_readComments_append_left pre (fun i hi => ?_) ha
    have hcolon := isTrivia_of_is hc (by decide) (by decide) (by decide)
    have hsign : (Token.symbol "=").isTrivia = false := rfl
    rw [readComments_code hcolon] at hi
    rw [readComments_equalsSign, readComments_code hsign]
    exact hi
  | dropLabel pre separator parameter bare post hsep hp =>
    refine isSome_readComments_append_left pre (fun i hi => ?_) ha
    have ht : separator.isTrivia = false := by
      rcases hsep with h | h
      · exact isTrivia_of_opens h
      · exact isTrivia_of_is h (by decide) (by decide) (by decide)
    rw [readComments_code ht] at hi ⊢
    cases i with
    | true => cases hi
    | false => exact isSome_readComments_unlabelled post hp hi
  | returnArrow => exact absurd rfl hs
  | suffixAccessors pre keyword ts keyword' edited hk hsuf =>
    refine isSome_readComments_append_left pre (fun i hi => ?_) ha
    have ht := isTrivia_of_is hk (by decide) (by decide) (by decide)
    have ht' : keyword'.isTrivia = false := by
      obtain ⟨p, -, ⟨-, rfl, -⟩ | ⟨settable, -, rfl, -⟩⟩ := suffixed?_eq_some hsuf
      · rfl
      · cases settable
        · rfl
        · exact ht
    rw [readComments_code ht] at hi
    rw [readComments_code ht']
    cases i with
    | true => cases hi
    | false => exact isSome_readComments_suffixed hsuf hi
  | relocateSetter pre modifier ts line after hm hr _ hafter =>
    exact isSome_readComments_append_left pre
      (fun i hi => isSome_readComments_restricted _ hm hr hafter hi) ha
  | markLateInit pre keyword ts us hk hu =>
    refine isSome_readComments_append_left pre (fun i hi => ?_) ha
    have ht := isTrivia_of_is hk (by decide) (by decide) (by decide)
    have hmod : (Token.keyword "lateinit").isTrivia = false := rfl
    rw [readComments_code ht] at hi
    cases i with
    | true => cases hi
    | false =>
      show (readComments false (Token.keyword "lateinit" :: Token.space :: keyword :: us)).isSome
        = true
      rw [readComments_code hmod]
      show (readComments false (keyword :: us)).isSome = true
      rw [readComments_code ht]
      exact isSome_readComments_unmarked hu hi

end Kotlinize
