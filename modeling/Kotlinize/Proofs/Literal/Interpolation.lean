import Kotlinize.Proofs.Literal.Grammar

namespace Kotlinize

/-!
# Literals inside expressions

A literal may stand in an expression that is interpolated into another literal.  There a quote
opens it, and a hash is a character like any other.  So a literal without hashes is read in an
expression as it is by itself, while one with hashes is read as if it had none, and may end too
soon.

* `IsLiteral`, `isLiteral_iff` — a text that is one literal.
* `interpolated` — the literal whose only content is an expression.
* `isLiteral_interpolated_iff` — when a text can stand there.
* `closedBy_expression_hashed` — literals without hashes can, and with hashes put around them too.
-/

/-- A text that is one string literal. -/
def IsLiteral (text : String) : Prop := tokenize text = .ok [⟨.stringLiteral, text, .start⟩]

/-- The literal that holds one interpolated expression and nothing else. -/
def interpolated (expression : String) : String := "\"\\(" ++ expression ++ ")\""

theorem toList_interpolated (text : String) :
    (interpolated text).toList = '"' :: '\\' :: '(' :: (text.toList ++ [')', '"']) := by
  simp [interpolated]

variable {text : String} {cs : List Char}

/-- A text is one literal if and only if it opens as one and ends where this is closed. -/
theorem isLiteral_iff :
    IsLiteral text ↔ ∃ hashes multiline inside,
      text.toList = List.replicate hashes '#' ++ (Frame.quotes multiline ++ inside) ∧
      Frame.startsMultiline (Frame.quotes multiline ++ inside) = multiline ∧
      (Frame.quoted hashes multiline).ClosedBy inside := by
  have hall (hmark : dropMark text.toList = text.toList) :
      IsLiteral text ↔ tokenizeAt .start text.toList
        = .ok [⟨.stringLiteral, String.ofList text.toList, .start⟩] := by
    rw [IsLiteral, tokenize, hmark, String.ofList_toList]
  constructor
  · intro h
    have hmark : dropMark text.toList = text.toList :=
      (spelling_of_tokenize h).symm.trans (List.append_nil _)
    exact tokenizeAt_eq_literal_iff.1 ((hall hmark).1 h)
  · rintro hparts
    have hmark : dropMark text.toList = text.toList := by
      obtain ⟨hashes, multiline, inside, htext, -, -⟩ := hparts
      rw [htext]
      cases hashes with
      | zero => cases multiline <;> rfl
      | succ hashes => rfl
    exact (hall hmark).2 (tokenizeAt_eq_literal_iff.2 hparts)

/-! ### Expressions in a literal -/

variable {hashes : Nat} {multiline : Bool}

/-- Behind an escape and a parenthesis, what closes the expression comes before what closes the
    literal. -/
theorem Frame.closedBy_escape_append_iff :
    (quoted hashes multiline).ClosedBy (escape hashes ++ '(' :: cs) ↔
      ∃ as bs, cs = as ++ bs ∧ (expression 0).ClosedBy as ∧
        (quoted hashes multiline).ClosedBy bs := by
  constructor
  · intro h
    generalize hall : escape hashes ++ '(' :: cs = all at h
    cases h with
    | close => cases multiline <;> cases hall
    | character _ _ hescape _ => exact absurd (hall ▸ List.prefix_append _ _) hescape
    | escaped hc _ =>
      obtain ⟨rfl, -⟩ := List.cons.inj (List.append_cancel_left hall)
      exact absurd rfl hc
    | interpolated ha hb =>
      exact ⟨_, _, (List.cons.inj (List.append_cancel_left hall)).2, ha, hb⟩
  · rintro ⟨as, bs, rfl, ha, hb⟩
    exact .interpolated ha hb

/-- What is interpolated is read as an expression, and the literal goes on behind it. -/
theorem isLiteral_interpolated_iff_append :
    IsLiteral (interpolated text) ↔
      ∃ as bs, text.toList ++ [')', '"'] = as ++ bs ∧ (Frame.expression 0).ClosedBy as ∧
        (Frame.quoted 0 false).ClosedBy bs := by
  rw [isLiteral_iff, toList_interpolated]
  constructor
  · rintro ⟨hashes, multiline, inside, htext, -, hclose⟩
    -- The first two characters say that the literal has no hashes and one quote.
    cases hashes with
    | succ hashes => cases htext
    | zero =>
      cases multiline with
      | true => cases htext
      | false =>
        obtain rfl := (List.cons.inj htext).2
        exact Frame.closedBy_escape_append_iff.1 hclose
  · intro h
    exact ⟨0, false, _, rfl, rfl, Frame.closedBy_escape_append_iff.2 h⟩

theorem Frame.ClosedBy.ne_nil (h : (quoted hashes multiline).ClosedBy cs) : cs ≠ [] := by
  rintro rfl
  have hlen := h.closing_suffix.length_le
  rw [length_closing, List.length_nil] at hlen
  split at hlen <;> omega

/-- The expression ends behind the text, or in it. -/
theorem isLiteral_interpolated_iff :
    IsLiteral (interpolated text) ↔
      (Frame.expression 0).ClosedBy (text.toList ++ [')']) ∨
        ∃ as bs, text.toList = as ++ bs ∧ (Frame.expression 0).ClosedBy as ∧
          (Frame.quoted 0 false).ClosedBy (bs ++ [')', '"']) := by
  rw [isLiteral_interpolated_iff_append]
  constructor
  · rintro ⟨as, bs, hsplit, ha, hb⟩
    rcases List.append_eq_append_iff.1 hsplit with ⟨more, rfl, hmore⟩ | ⟨bs', htext, rfl⟩
    · match more, hmore with
      | [], hmore =>
        rw [List.append_nil] at ha
        exact .inr ⟨_, [], (List.append_nil _).symm, ha, hmore ▸ hb⟩
      | [c], hmore =>
        obtain ⟨rfl, -⟩ := List.cons.inj hmore
        exact .inl ha
      | _ :: _ :: _, hmore =>
        have hlen := congrArg List.length hmore
        have hpos := List.length_pos_iff.2 hb.ne_nil
        simp only [List.cons_append, List.length_cons, List.length_append, List.length_nil] at hlen
        omega
    · exact .inr ⟨as, bs', htext, ha, hb⟩
  · rintro (h | ⟨as, bs, htext, ha, hb⟩)
    · exact ⟨_, ['"'], by rw [List.append_assoc]; rfl, h, .close⟩
    · exact ⟨as, _, by rw [htext, List.append_assoc], ha, hb⟩

/-- Hashes in an expression are characters like others. -/
theorem Frame.ClosedBy.hashes_append {depth : Nat} (h : (expression depth).ClosedBy cs)
    (hashes : Nat) : (expression depth).ClosedBy (List.replicate hashes '#' ++ cs) := by
  induction hashes with
  | zero => exact h
  | succ hashes ih => exact .other (by decide) ih

/-- A text behind that has no quotes does not make three of one. -/
theorem startsMultiline_append_of_not_mem {rest : List Char} (h : '"' ∉ rest) :
    Frame.startsMultiline (cs ++ rest) = Frame.startsMultiline cs := by
  rw [Bool.eq_iff_iff]
  unfold Frame.startsMultiline
  rw [List.isPrefixOf_iff_prefix, List.isPrefixOf_iff_prefix]
  constructor
  · intro hpre
    rcases List.prefix_or_prefix_of_prefix hpre (List.prefix_append cs rest) with hp | ⟨more, hp⟩
    · exact hp
    · rw [← hp, List.prefix_append_right_inj] at hpre
      obtain rfl : more = [] := by
        rw [List.eq_nil_iff_forall_not_mem]
        intro c hc
        have hquote : c ∈ ['"', '"', '"'] := hp ▸ List.mem_append_right cs hc
        obtain rfl : c = '"' := by simpa using hquote
        exact h (hpre.subset hc)
      rw [← hp, List.append_nil]
  · exact fun hp => hp.trans (List.prefix_append cs rest)

/-- A text with some hashes on each side. -/
def hashed (hashes : Nat) (text : String) : String :=
  String.ofList (List.replicate hashes '#' ++ (text.toList ++ List.replicate hashes '#'))

@[simp] theorem hashed_zero (text : String) : hashed 0 text = text := by
  simp [hashed]

/-- A literal that starts with a quote closes an expression together with a parenthesis behind it,
    and so it does with hashes around it. -/
theorem closedBy_expression_hashed (h : IsLiteral text) (hquote : text.toList.head? = some '"')
    (hashes : Nat) : (Frame.expression 0).ClosedBy ((hashed hashes text).toList ++ [')']) := by
  obtain ⟨n, multiline, inside, htext, hmulti, hclose⟩ := isLiteral_iff.1 h
  cases n with
  | succ n =>
    rw [htext] at hquote
    cases hquote
  | zero =>
    rw [List.replicate_zero, List.nil_append] at htext
    have hrest : '"' ∉ List.replicate hashes '#' ++ [')'] := by simp
    have hliteral : (Frame.expression 0).ClosedBy
        (Frame.quotes multiline ++ (inside ++ (List.replicate hashes '#' ++ [')']))) := by
      refine .literal ?_ hclose (Frame.ClosedBy.parenthesis.hashes_append hashes)
      rw [← List.append_assoc, startsMultiline_append_of_not_mem hrest, hmulti]
    have hall := hliteral.hashes_append hashes
    rw [hashed, String.toList_ofList, htext]
    simpa using hall

/-- **Which texts can be interpolated into a literal.**  The expression is closed by the parenthesis
    behind the text, or by one in it in front of a rest that the literal can go on with.  A literal
    of one line or of many can always be interpolated, and with any number of hashes around it too,
    as long as it is a literal without them. -/
theorem isLiteral_interpolated (text : String) :
    (IsLiteral (interpolated text) ↔
        (Frame.expression 0).ClosedBy (text.toList ++ [')']) ∨
          ∃ as bs, text.toList = as ++ bs ∧ (Frame.expression 0).ClosedBy as ∧
            (Frame.quoted 0 false).ClosedBy (bs ++ [')', '"'])) ∧
      (IsLiteral text → text.toList.head? = some '"' → ∀ hashes,
        IsLiteral (interpolated (hashed hashes text))) :=
  ⟨isLiteral_interpolated_iff, fun h hquote hashes =>
    isLiteral_interpolated_iff.2 (.inl (closedBy_expression_hashed h hquote hashes))⟩

/-- A literal of many lines that holds a quote, interpolated without hashes and with one. -/
theorem isLiteral_interpolated_multiline :
    IsLiteral "\"\"\"a\"b\"\"\"" ∧ IsLiteral "\"\\(\"\"\"a\"b\"\"\")\"" ∧
      IsLiteral "\"\\(#\"\"\"a\"b\"\"\"#)\"" := by
  have h : IsLiteral "\"\"\"a\"b\"\"\"" := by
    unfold IsLiteral
    cbv
  have hall := (isLiteral_interpolated "\"\"\"a\"b\"\"\"").2 h (by decide)
  have hplain := hall 0
  rw [hashed_zero] at hplain
  exact ⟨h, hplain, hall 1⟩

/-- **A literal with hashes may hold a quote that ends it inside an expression.** -/
theorem not_isLiteral_interpolated_raw :
    ¬ ∀ text, IsLiteral text →
      ∃ t, tokenize (interpolated text) = .ok [t] ∧ t.kind = .stringLiteral := by
  intro hall
  have hliteral : IsLiteral "#\"a\"b\"#" := by
    unfold IsLiteral
    cbv
  have hfails : tokenize (interpolated "#\"a\"b\"#") = .error ⟨.unterminatedString, .start⟩ := by
    cbv
  obtain ⟨t, ht, -⟩ := hall _ hliteral
  rw [hfails] at ht
  cases ht

end Kotlinize
