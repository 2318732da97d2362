import Kotlinize.Proofs.Construct

namespace Kotlinize

/-!
# Tokens that an edit passes by

Around what they are about, the edits add and take spacing, and those of accessors also names and
parentheses.  Tokens of any other class are the same before and after, in the same order.

* `SkipsSpacing`, `Bystander` — classes of tokens without spacing, and without names and
  parentheses either.
* `SkipsSpacing.filter_gapBefore`, … — spaces that an edit adds, spacing that it takes.
* `AccessorFree` — classes without the tokens that the edits of accessors add, spacing apart.
* `AccessorFree.filter_openGetter`, … — what happens to the tokens of a property body.
-/

variable {config : Config} {p : Token → Bool} {ts : List Token}

/-! ### Spaces that edits add -/

theorem filter_gapBefore_eq_nil (h : p .space = false) (ts : List Token) :
    (gapBefore ts).filter p = [] := by
  rcases gapBefore_eq ts with hg | hg <;> simp [hg, h]

theorem filter_gapAfter_eq_nil (h : p .space = false) (ts : List Token) :
    (gapAfter ts).filter p = [] := by
  rcases gapAfter_eq ts with hg | hg <;> simp [hg, h]

/-! ### Spacing -/

/-- No blank and no line end belongs to a class. -/
def SkipsSpacing (p : Token → Bool) : Prop := ∀ t, t.isSpacing = true → p t = false

namespace SkipsSpacing

theorem of_kind (h : ∀ t : Token, t.kind = .whitespace ∨ t.kind = .linebreak → p t = false) :
    SkipsSpacing p :=
  fun t ht => h t (by simpa [Token.isSpacing] using ht)

theorem space (h : SkipsSpacing p) : p .space = false := h .space rfl

theorem filter_eq_nil (h : SkipsSpacing p) (hs : ∀ t ∈ ts, t.isSpacing = true) :
    ts.filter p = [] :=
  List.filter_eq_nil_iff.2 fun t ht => by simp [h t (hs t ht)]

theorem filter_gapBefore (h : SkipsSpacing p) (ts : List Token) :
    (gapBefore ts).filter p = [] :=
  filter_gapBefore_eq_nil h.space ts

theorem filter_gapAfter (h : SkipsSpacing p) (ts : List Token) : (gapAfter ts).filter p = [] :=
  filter_gapAfter_eq_nil h.space ts

theorem filter_dropSpacingEnd (h : SkipsSpacing p) (ts : List Token) :
    (dropSpacingEnd ts).filter p = ts.filter p := by
  obtain ⟨spacing, hs, ht⟩ := exists_eq_dropSpacingEnd_append ts
  conv => rhs; rw [ht]
  rw [List.filter_append, h.filter_eq_nil hs, List.append_nil]

theorem filter_dropEndIf (h : SkipsSpacing p) {q : Token → Bool}
    (hq : ∀ t, q t = true → t.isSpacing = true) (ts : List Token) :
    (dropEndIf q ts).filter p = ts.filter p := by
  rcases dropEndIf_eq q ts with hd | ⟨t, ht, hd⟩
  · rw [hd]
  · conv => rhs; rw [hd]
    simp [h t (hq t ht)]

theorem filter_unclosed (h : SkipsSpacing p) (inside tail : List Token) :
    (unclosed inside tail).filter p = inside.filter p := by
  unfold unclosed
  dsimp only
  split
  · rw [h.filter_dropEndIf fun _ => isSpacing_of_isLinebreak,
      h.filter_dropEndIf fun _ => isSpacing_of_isWhitespace]
  · exact h.filter_dropEndIf (fun _ => isSpacing_of_isWhitespace) inside

end SkipsSpacing

/-! ### Accessors -/

/-- No token that the edits of accessors add belongs to a class. -/
structure AccessorFree (p : Token → Bool) : Prop where
  space : p .space = false
  identifier : ∀ text, p (.identifier text) = false
  opener : p Bracket.round.openToken = false
  closer : p Bracket.round.closeToken = false

namespace AccessorFree

theorem filter_parentheses (h : AccessorFree p) {parameter : List Token}
    (hp : parameter.filter p = []) : (parentheses parameter).filter p = [] := by
  simp [parentheses, h.opener, h.closer, hp]

theorem filter_openGetter (h : AccessorFree p) (body : List Token) :
    (openGetter body).filter p = body.filter p := by
  unfold openGetter
  split
  · rfl
  · rename_i a ha
    rw [← (of_accessorAt? ha).1]
    simp [Accessor.whole, List.filter_cons, filter_gapAfter_eq_nil h.space,
      h.filter_parentheses List.filter_nil]

theorem filter_openSetter (h : AccessorFree p) (body : List Token) :
    (openSetter config body).filter p = body.filter p := by
  unfold openSetter
  split
  · rfl
  · rename_i a ha
    split
    · have hname : [Token.identifier config.implicitSetterParameter].filter p = [] := by
        simp [h.identifier]
      rw [← (of_accessorAt? ha).1]
      simp [Accessor.whole, List.filter_cons, h.filter_parentheses hname]
    · rfl

/-- A getter around the statements of a property adds only names, parentheses and spaces. -/
theorem filter_withGetter (h : AccessorFree p) (b : PropertyBody) :
    b.withGetter.filter p = b.whole.filter p := by
  simp [PropertyBody.withGetter, PropertyBody.whole, filter_gapAfter_eq_nil h.space, h.space,
    h.identifier, h.filter_parentheses List.filter_nil]

end AccessorFree

/-- No spacing, no name and no parenthesis that an edit adds belongs to a class. -/
structure Bystander (p : Token → Bool) : Prop where
  spacing : SkipsSpacing p
  identifier : ∀ text, p (.identifier text) = false
  opener : p Bracket.round.openToken = false
  closer : p Bracket.round.closeToken = false

namespace Bystander

theorem accessorFree (h : Bystander p) : AccessorFree p :=
  ⟨h.spacing.space, h.identifier, h.opener, h.closer⟩

theorem filter_openGetter (h : Bystander p) (body : List Token) :
    (openGetter body).filter p = body.filter p :=
  h.accessorFree.filter_openGetter body

theorem filter_openSetter (h : Bystander p) (body : List Token) :
    (openSetter config body).filter p = body.filter p :=
  h.accessorFree.filter_openSetter body

theorem filter_withGetter (h : Bystander p) (b : PropertyBody) :
    b.withGetter.filter p = b.whole.filter p :=
  h.accessorFree.filter_withGetter b

/-- Accessors that leave their braces leave nothing else. -/
theorem filter_withoutBraces (h : Bystander p) (b : PropertyBody) :
    (b.withoutBraces config).filter p
      = b.lead.filter p ++ (b.enclosed.inside.filter p ++ b.enclosed.tail.filter p) := by
  rw [PropertyBody.withoutBraces, List.filter_append, List.filter_append, h.filter_openGetter,
    h.filter_openSetter, h.spacing.filter_unclosed,
    h.spacing.filter_dropEndIf fun _ => isSpacing_of_isWhitespace]

end Bystander

end Kotlinize
