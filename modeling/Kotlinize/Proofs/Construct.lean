import Kotlinize.Stage
import Mathlib

namespace Kotlinize

/-!
# What the searches find

Every stage searches a text for its constructs.  The lemmas of this file turn a successful
search into the shape of the text it was made in, with all that it has tested, so that no later
proof has to open a search.

* `unlabelled?_eq_some` — a parameter with a label.
* `typedName?_eq_some`, `propertyBody?_eq_some`, `suffixed?_eq_some` — a property with a body.
* `restricted?_eq_some` — a declaration behind the modifier of its setter.
* `unmarked?_eq_some` — a late-initialised property.
-/

variable {config : Config}

/-! ### Runs of tokens -/

/-- The tokens that `significant` skips are trivia. -/
theorem isTrivia_of_mem_leadingTrivia {ts : List Token} {t : Token}
    (h : t ∈ leadingTrivia ts) : t.isTrivia = true :=
  List.all_eq_true.1 List.all_takeWhile t h

/-- The first token that `significant` leaves carries syntax. -/
theorem isTrivia_of_significant_eq_cons {ts rest : List Token} {t : Token}
    (h : significant ts = t :: rest) : t.isTrivia = false := by
  have hhead := List.head?_dropWhile_not Token.isTrivia ts
  rw [show ts.dropWhile Token.isTrivia = t :: rest from h] at hhead
  simpa using hhead

/-- The tokens that `takeWhile` takes satisfy the test. -/
theorem of_mem_takeWhile {p : Token → Bool} {ts : List Token} {t : Token}
    (h : t ∈ ts.takeWhile p) : p t = true :=
  List.all_eq_true.1 List.all_takeWhile t h

theorem dropEndIf_sublist (p : Token → Bool) (ts : List Token) : (dropEndIf p ts).Sublist ts := by
  unfold dropEndIf
  split
  · exact List.dropLast_sublist ts
  · exact List.Sublist.refl ts

theorem isSpacing_of_getLast?_dropSpacingEnd {ts : List Token} {t : Token}
    (h : (dropSpacingEnd ts).getLast? = some t) : t.isSpacing = false := by
  rw [dropSpacingEnd, List.getLast?_reverse] at h
  have hd := List.head?_dropWhile_not Token.isSpacing ts.reverse
  rw [h] at hd
  simpa using hd

/-! ### Tokens that carry syntax -/

theorem isTrivia_eq_false {t : Token} (hw : t.kind ≠ .whitespace) (hl : t.kind ≠ .linebreak)
    (hc : t.kind ≠ .comment) : t.isTrivia = false := by
  simp [Token.isTrivia, Token.isSpacing, hw, hl, hc]

theorem isTrivia_of_is {t : Token} {kind : TokenKind} {text : String}
    (h : t.is kind text = true) (hw : kind ≠ .whitespace) (hl : kind ≠ .linebreak)
    (hc : kind ≠ .comment) : t.isTrivia = false := by
  rw [Token.is_iff] at h
  apply isTrivia_eq_false <;> rw [h.1] <;> assumption

theorem isTrivia_of_isKeyword {t : Token} (h : t.isKeyword = true) : t.isTrivia = false := by
  rw [Token.isKeyword, beq_iff_eq] at h
  apply isTrivia_eq_false <;> rw [h] <;> decide

theorem isTrivia_of_isIdentifier {t : Token} (h : t.isIdentifier = true) : t.isTrivia = false := by
  rw [Token.isIdentifier, beq_iff_eq] at h
  apply isTrivia_eq_false <;> rw [h] <;> decide

theorem isKeyword_eq_false_of_isTrivia {t : Token} (h : t.isTrivia = true) : t.isKeyword = false :=
  Bool.eq_false_iff.2 fun hk => Bool.false_ne_true ((isTrivia_of_isKeyword hk).symm.trans h)

theorem isTrivia_of_isLabel {t : Token} (h : isLabel t = true) : t.isTrivia = false := by
  unfold isLabel Token.isIdentifier Token.isKeyword at h
  apply isTrivia_eq_false <;> intro hk <;> rw [hk] at h <;> cases h

theorem isTrivia_of_opens {b : Bracket} {t : Token} (h : b.opens t = true) :
    t.isTrivia = false :=
  isTrivia_of_is h (by decide) (by decide) (by decide)

theorem opens_eq_false_of_isTrivia (b : Bracket) {t : Token} (h : t.isTrivia = true) :
    b.opens t = false :=
  Bool.eq_false_iff.2 fun ho => Bool.false_ne_true ((isTrivia_of_opens ho).symm.trans h)

theorem isTrivia_of_closes {b : Bracket} {t : Token} (h : b.closes t = true) :
    t.isTrivia = false :=
  isTrivia_of_is h (by decide) (by decide) (by decide)

theorem isSpacing_eq_false {t : Token} (h : t.isTrivia = false) : t.isSpacing = false := by
  rw [Token.isTrivia, Bool.or_eq_false_iff] at h
  exact h.1

theorem isSpacing_of_isWhitespace {t : Token} (h : t.isWhitespace = true) :
    t.isSpacing = true := by
  rw [Token.isSpacing]
  exact Bool.or_eq_true_iff.2 (Or.inl h)

theorem isSpacing_of_isLinebreak {t : Token} (h : t.isLinebreak = true) : t.isSpacing = true := by
  rw [Token.isSpacing]
  exact Bool.or_eq_true_iff.2 (Or.inr h)

/-- The end of a line, or the line end that stands for the end of a text. -/
theorem isLinebreak_lineEnd {after : List Token} (h : after.head?.all Token.isLinebreak = true) :
    (after.head?.getD .newline).isLinebreak = true := by
  cases after with
  | nil => rfl
  | cons t after => exact h

theorem isTrivia_of_isWhitespace (t : Token) (h : t.isWhitespace = true) : t.isTrivia = true := by
  simp_all [Token.isWhitespace, Token.isTrivia, Token.isSpacing]

theorem isTrivia_of_isLinebreak (t : Token) (h : t.isLinebreak = true) : t.isTrivia = true := by
  simp_all [Token.isLinebreak, Token.isTrivia, Token.isSpacing]

/-! ### Functions -/

/-- A parameter list starts with a parenthesis. -/
theorem opens_of_parameterList? {ts : List Token} {p : ParameterList}
    (h : parameterList? ts = some p) : Bracket.round.opens p.opener = true := by
  unfold parameterList? at h
  split at h
  · cases h
  · split at h
    · obtain ⟨e, -, rfl⟩ := Option.map_eq_some_iff.1 h
      assumption
    · cases h

/-- A parameter list ends in the partner of that parenthesis. -/
theorem closes_of_parameterList? {ts : List Token} {p : ParameterList}
    (h : parameterList? ts = some p) : Bracket.round.closes p.enclosed.close = true := by
  unfold parameterList? at h
  split at h
  · cases h
  · split at h
    · obtain ⟨e, he, rfl⟩ := Option.map_eq_some_iff.1 h
      exact Bracket.closes_of_enclosed? he
    · cases h

/-- A parameter with a label: the label, which trivia may precede, goes with the spacing
    behind it, and a name follows. -/
theorem unlabelled?_eq_some {parameter us : List Token}
    (h : unlabelled? parameter = some us) :
    ∃ trivia label spacing rest,
      parameter = trivia ++ label :: (spacing ++ rest) ∧ us = trivia ++ rest ∧
      (∀ t ∈ trivia, t.isTrivia = true) ∧ isLabel label = true ∧
      (∀ t ∈ spacing, t.isSpacing = true) ∧
      (significant rest).head?.any Token.isIdentifier = true := by
  unfold unlabelled? at h
  split at h
  · cases h
  · rename_i label rest hs
    split at h
    · rename_i hc
      cases h
      rw [Bool.and_eq_true] at hc
      refine ⟨leadingTrivia parameter, label, rest.takeWhile Token.isSpacing,
        rest.dropWhile Token.isSpacing, ?_, rfl, fun t => isTrivia_of_mem_leadingTrivia, hc.1,
        fun t => of_mem_takeWhile, ?_⟩
      · rw [List.takeWhile_append_dropWhile, ← hs, leadingTrivia_append_significant]
      · -- Spacing is trivia, so the first token that carries syntax is the same without it.
        have hd : significant (rest.takeWhile Token.isSpacing ++ rest.dropWhile Token.isSpacing)
            = significant (rest.dropWhile Token.isSpacing) :=
          List.dropWhile_append_of_pos fun t ht => Token.isTrivia_of_isSpacing (of_mem_takeWhile ht)
        rw [List.takeWhile_append_dropWhile] at hd
        rw [← hd]
        exact hc.2
    · cases h

/-- The cut of a signature is at an arrow. -/
theorem isArrow_of_arrowAfterList? {onNewLine : Bool} {ts : List Token} {s : Signature}
    (h : arrowAfterList? config onNewLine ts = some s) : isArrow s.arrow = true := by
  fun_induction arrowAfterList? config onNewLine ts generalizing s with
  | case1 | case4 => cases h
  | case3 => cases h; assumption
  | case2 _ _ _ _ ih | case5 _ _ _ _ _ _ ih =>
    obtain ⟨s', hs', rfl⟩ := Option.map_eq_some_iff.1 h
    exact (ih hs' :)

theorem isArrow_of_signature? {ts : List Token} {s : Signature}
    (h : signature? config ts = some s) : isArrow s.arrow = true := by
  unfold signature? at h
  split at h
  · cases h
  · obtain ⟨s', hs', rfl⟩ := Option.map_eq_some_iff.1 h
    exact (isArrow_of_arrowAfterList? hs' :)

/-! ### Properties -/

/-- A typed name: a name and a colon, with trivia before, between and behind them. -/
theorem typedName?_eq_some {ts : List Token} {n : TypedName} (h : typedName? ts = some n) :
    ∃ before name between colon behind,
      n.lead = before ++ name :: (between ++ colon :: behind) ∧
      (∀ t ∈ before, t.isTrivia = true) ∧ name.isIdentifier = true ∧
      (∀ t ∈ between, t.isTrivia = true) ∧ colon.is .symbol ":" = true ∧
      (∀ t ∈ behind, t.isTrivia = true) := by
  unfold typedName? at h
  split at h
  · cases h
  · rename_i name afterName h₁
    split at h
    · cases h
    · rename_i colon afterColon h₂
      split at h
      · rename_i hc
        cases h
        rw [Bool.and_eq_true] at hc
        exact ⟨_, name, _, colon, _, rfl, fun t => isTrivia_of_mem_leadingTrivia, hc.1,
          fun t => isTrivia_of_mem_leadingTrivia, hc.2, fun t => isTrivia_of_mem_leadingTrivia⟩
      · cases h

/-- A late-initialised property: a typed name, a type of at least one token, and the mark. -/
theorem unmarked?_eq_some {ts us : List Token} (h : unmarked? ts = some us) :
    ∃ n type mark rest,
      typedName? ts = some n ∧ ts = n.lead ++ (type ++ mark :: rest) ∧
      us = n.lead ++ (type ++ rest) ∧ type ≠ [] ∧
      (∀ t ∈ type, isTypeToken lateInitTypeMarks t = true) ∧
      mark.is .symbol "!" = true := by
  unfold unmarked? at h
  split at h
  · cases h
  · rename_i n hn
    split at h
    · rename_i first type mark rest h₁ h₂
      split at h
      · rename_i hm
        cases h
        refine ⟨n, first :: type, mark, rest, hn, ?_, rfl, List.cons_ne_nil _ _, ?_, hm⟩
        · rw [← h₁, ← h₂, List.takeWhile_append_dropWhile]
          exact (whole_of_typedName? hn).symm
        · intro t ht
          rw [← h₁] at ht
          exact of_mem_takeWhile ht
      · cases h
    · cases h

/-- A restricted setter: `(set)` behind the modifier, with spacing around it, and then a
    declaration that does not start with spacing. -/
theorem restricted?_eq_some {ts declaration : List Token}
    (h : restricted? ts = some declaration) :
    ∃ before opener word closer behind,
      ts = before ++ opener :: word :: closer :: (behind ++ declaration) ∧
      (∀ t ∈ before, t.isSpacing = true) ∧ Bracket.round.opens opener = true ∧
      word.is .identifier "set" = true ∧ Bracket.round.closes closer = true ∧
      (∀ t ∈ behind, t.isSpacing = true) ∧
      ∃ t rest, declaration = t :: rest ∧ t.isSpacing = false := by
  unfold restricted? at h
  split at h
  · rename_i opener word closer rest hd
    split at h
    · rename_i hc
      split at h
      · cases h
      · rename_i hne
        cases h
        rw [Bool.and_eq_true, Bool.and_eq_true] at hc
        refine ⟨ts.takeWhile Token.isSpacing, opener, word, closer,
          rest.takeWhile Token.isSpacing, ?_, fun t => of_mem_takeWhile, hc.1.1, hc.1.2, hc.2,
          fun t => of_mem_takeWhile, ?_⟩
        · rw [List.takeWhile_append_dropWhile, ← hd, List.takeWhile_append_dropWhile]
        · cases hr : rest.dropWhile Token.isSpacing with
          | nil => exact absurd hr hne
          | cons t rest' =>
            refine ⟨t, rest', rfl, ?_⟩
            have hf := List.head?_dropWhile_not Token.isSpacing rest
            rw [hr] at hf
            simpa using hf
    · cases h
  · cases h

/-- A property body stands in braces behind a typed name and a type, which trivia may follow. -/
theorem propertyBody?_eq_some {ts : List Token} {p : PropertyBody}
    (h : propertyBody? ts = some p) :
    ∃ n type trivia rest,
      typedName? ts = some n ∧ p.lead = n.lead ++ (type ++ trivia) ∧
      (∀ t ∈ type, continuesType t = true) ∧ (∀ t ∈ trivia, t.isTrivia = true) ∧
      Bracket.curly.opens p.opener = true ∧
      Bracket.curly.enclosed? 0 rest = some p.enclosed := by
  unfold propertyBody? at h
  split at h
  · cases h
  · rename_i n hn
    split at h
    · split at h
      · cases h
      · rename_i opener rest hs
        split at h
        · rename_i ho
          obtain ⟨e, he, rfl⟩ := Option.map_eq_some_iff.1 h
          exact ⟨n, _, _, rest, hn, rfl, fun t => of_mem_takeWhile,
            fun t => isTrivia_of_mem_leadingTrivia, ho, he⟩
        · cases h
    · cases h

theorem opens_of_propertyBody? {ts : List Token} {p : PropertyBody}
    (h : propertyBody? ts = some p) : Bracket.curly.opens p.opener = true := by
  obtain ⟨_, _, _, _, _, _, _, _, ho, _⟩ := propertyBody?_eq_some h
  exact ho

theorem closes_of_propertyBody? {ts : List Token} {p : PropertyBody}
    (h : propertyBody? ts = some p) : Bracket.curly.closes p.enclosed.close = true := by
  obtain ⟨_, _, _, _, _, _, _, _, _, he⟩ := propertyBody?_eq_some h
  exact Bracket.closes_of_enclosed? he

/-- A property is changed in one of two ways: its statements become those of a getter, or its
    accessors leave their braces. -/
theorem suffixed?_eq_some {keyword keyword' : Token} {ts edited : List Token}
    (h : suffixed? config keyword ts = some (keyword', edited)) :
    ∃ p, propertyBody? ts = some p ∧
      (p.form = .getter ∧ keyword' = constantKeyword ∧ edited = p.withGetter ∨
        ∃ settable, p.form = .accessors settable ∧
          keyword' = (if settable then keyword else constantKeyword) ∧
          edited = p.withoutBraces config) := by
  unfold suffixed? at h
  split at h
  · cases h
  · rename_i p hp
    refine ⟨p, hp, ?_⟩
    unfold PropertyBody.suffixed at h
    split at h
    · cases h
    · rename_i hf
      cases h
      exact Or.inl ⟨hf, rfl, rfl⟩
    · rename_i settable hf
      cases h
      exact Or.inr ⟨settable, hf, rfl, rfl⟩

/-- A changed property is declared by a keyword as before, or by that of a constant. -/
theorem keyword_of_suffixed? {keyword keyword' : Token} {ts edited : List Token}
    (h : suffixed? config keyword ts = some (keyword', edited)) :
    keyword' = keyword ∨ keyword' = constantKeyword := by
  obtain ⟨p, -, ⟨-, hk, -⟩ | ⟨settable, -, hk, -⟩⟩ := suffixed?_eq_some h
  · exact Or.inr hk
  · cases settable
    · exact Or.inr hk
    · exact Or.inl hk

end Kotlinize
