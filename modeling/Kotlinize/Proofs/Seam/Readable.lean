import Kotlinize.Proofs.Reread.TokenList
import Kotlinize.Proofs.Rewrite

namespace Kotlinize

/-!
# Edits of readable tokens

With the default settings every token that an edit inserts is readable, so a list of readable
tokens stays one.

* `Readable` — all tokens of a list are readable.
* `readable_openGetter`, `readable_setterLine`, … — the pieces that edits write.
* `Rewrite.readable` — every rewrite keeps a list readable.
-/

variable {config : Config} {stage : Stage} {as bs ts : List Token}

/-- All tokens of a list are readable. -/
def Readable (ts : List Token) : Prop := ∀ t ∈ ts, t.isReadable = true

/-! ### Parts of readable lists -/

theorem readable_nil : Readable [] := nofun

@[simp] theorem readable_cons_iff {t : Token} :
    Readable (t :: ts) ↔ t.isReadable = true ∧ Readable ts :=
  List.forall_mem_cons

@[simp] theorem readable_append_iff : Readable (as ++ bs) ↔ Readable as ∧ Readable bs :=
  List.forall_mem_append

theorem Readable.of_sublist (h : Readable bs) (hs : as.Sublist bs) : Readable as :=
  fun t ht => h t (hs.subset ht)

theorem Readable.dropEndIf (h : Readable ts) (p : Token → Bool) : Readable (dropEndIf p ts) :=
  h.of_sublist (dropEndIf_sublist p ts)

theorem Readable.dropSpacingEnd (h : Readable ts) : Readable (dropSpacingEnd ts) := by
  obtain ⟨spacing, -, hw⟩ := exists_eq_dropSpacingEnd_append ts
  rw [hw, readable_append_iff] at h
  exact h.1

theorem Readable.unclosed (h : Readable ts) (tail : List Token) : Readable (unclosed ts tail) := by
  unfold Kotlinize.unclosed
  split
  · exact (h.dropEndIf _).dropEndIf _
  · exact h.dropEndIf _

/-! ### Inserted tokens -/

theorem isReadable_space : Token.space.isReadable = true := by decide

theorem isReadable_newline : Token.newline.isReadable = true := by decide

theorem isReadable_colon : (Token.symbol ":").isReadable = true := by decide

theorem isReadable_equals : (Token.symbol "=").isReadable = true := by decide

theorem readable_gapBefore (ts : List Token) : Readable (gapBefore ts) := by
  rcases gapBefore_eq ts with h | h <;> rw [h]
  · exact readable_nil
  · exact List.forall_mem_singleton.2 isReadable_space

theorem readable_gapAfter (ts : List Token) : Readable (gapAfter ts) := by
  rcases gapAfter_eq ts with h | h <;> rw [h]
  · exact readable_nil
  · exact List.forall_mem_singleton.2 isReadable_space

theorem readable_equalsSign (written ts : List Token) : Readable (equalsSign written ts) := by
  unfold equalsSign
  rw [readable_append_iff, readable_cons_iff]
  refine ⟨?_, isReadable_equals, readable_gapBefore ts⟩
  split
  · exact List.forall_mem_singleton.2 isReadable_space
  · exact readable_nil

theorem readable_parentheses (h : Readable ts) : Readable (parentheses ts) := by
  have hopen : Bracket.round.openToken.isReadable = true := by decide
  have hclose : Bracket.round.closeToken.isReadable = true := by decide
  unfold parentheses
  rw [readable_cons_iff, readable_append_iff]
  exact ⟨hopen, h, List.forall_mem_singleton.2 hclose⟩

theorem readable_openGetter (h : Readable ts) : Readable (openGetter ts) := by
  unfold openGetter
  split
  · exact h
  · rename_i a ha
    rw [← (of_accessorAt? ha).1, Accessor.whole, readable_append_iff, readable_cons_iff] at h
    simp only [readable_append_iff, readable_cons_iff]
    exact ⟨⟨h.1, readable_gapAfter _⟩, h.2.1, readable_parentheses readable_nil, h.2.2⟩

theorem readable_openSetter (h : Readable ts) : Readable (openSetter .default ts) := by
  have hname : (Token.identifier "newValue").isReadable = true := by decide
  unfold openSetter
  split
  · exact h
  · rename_i a ha
    split
    · rw [← (of_accessorAt? ha).1, Accessor.whole, readable_append_iff, readable_cons_iff] at h
      simp only [readable_append_iff, readable_cons_iff]
      exact ⟨h.1, h.2.1, readable_parentheses (List.forall_mem_singleton.2 hname), h.2.2⟩
    · exact h

/-! ### The line of a setter -/

theorem isReadable_whitespace {text : String} (hne : text.toList ≠ [])
    (h : ∀ c ∈ text.toList, (isBlank c || isLineEnd c) = true) :
    (Token.whitespace text).isReadable = true := by
  have hmark : text.toList.contains '\ufeff' = false := by
    rw [Bool.eq_false_iff]
    intro hm
    exact absurd (h _ (List.contains_iff_mem.1 hm)) (by decide)
  obtain ⟨c, cs, hcs⟩ := List.exists_cons_of_ne_nil hne
  have htext : (Token.whitespace text).text.toList = c :: cs := hcs
  rw [hcs] at h hmark
  rw [Token.isReadable, htext, hmark]
  exact List.all_eq_true.2 h

/-- What stands first on a line is one of the tokens of the text. -/
theorem mem_of_lineHead? {pre : List Token} {t : Token} (h : lineHead? pre = some t) :
    t ∈ pre := by
  -- From any head on, the head of the line is that one or a token passed since.
  have hstep : ∀ (ts : List Token) (head? : Option Token),
      ts.foldl nextLineHead head? = some t → head? = some t ∨ t ∈ ts := by
    intro ts
    induction ts with
    | nil => exact fun _ h => Or.inl h
    | cons u ts ih =>
      intro head? h
      rcases ih _ h with hu | hmem
      · unfold nextLineHead at hu
        split at hu
        · cases hu
        · cases hh : head? with
          | none =>
            rw [hh] at hu
            cases hu
            exact Or.inr List.mem_cons_self
          | some v =>
            rw [hh] at hu
            exact Or.inl hu
      · exact Or.inr (List.mem_cons_of_mem u hmem)
  rcases hstep pre none h with h | h
  · cases h
  · exact h

/-- The indentation of a line is made of blanks and line ends. -/
theorem spacing_indentText {pre : List Token} (h : Readable pre) :
    ∀ c ∈ (indentText (lineHead? pre)).toList, (isBlank c || isLineEnd c) = true := by
  unfold indentText
  split
  · rename_i t ht
    split
    · rename_i hw
      have hs : t.isSpacing = true := by
        rw [Token.isSpacing]
        exact Bool.or_eq_true_iff.2 (Or.inl hw)
      exact Token.spacing_of_isReadable (h t (mem_of_lineHead? ht)) hs
    · exact List.forall_mem_nil _
  · exact List.forall_mem_nil _

theorem readable_setterLine {pre after : List Token} {modifier : Token} (hpre : Readable pre)
    (hm : modifier.isReadable = true) (ha : Readable after) :
    Readable (setterLine .default (lineHead? pre) modifier after) := by
  have hset : (Token.identifier "set").isReadable = true := by decide
  have hend : (after.head?.getD .newline).isReadable = true := by
    cases after with
    | nil => exact isReadable_newline
    | cons t after => exact ha t List.mem_cons_self
  -- The indentation is what the line had and one tab more.
  have hindent : (indentText (lineHead? pre) ++ Config.default.indentUnit).toList
      = (indentText (lineHead? pre)).toList ++ ['\t'] := String.toList_append
  have hws : (Token.whitespace (indentText (lineHead? pre)
      ++ Config.default.indentUnit)).isReadable = true := by
    apply isReadable_whitespace
    · rw [hindent]
      exact List.append_ne_nil_of_right_ne_nil _ (List.cons_ne_nil _ _)
    · rw [hindent, List.forall_mem_append, List.forall_mem_singleton]
      exact ⟨spacing_indentText hpre, rfl⟩
  unfold setterLine
  simp only [readable_cons_iff]
  exact ⟨hend, hws, hm, isReadable_space, hset, readable_nil⟩

/-! ### Rewrites -/

theorem Readable.whole {e : Enclosed} :
    Readable e.whole ↔ Readable e.inside ∧ e.close.isReadable = true ∧ Readable e.tail := by
  rw [Enclosed.whole, readable_append_iff, readable_cons_iff]

/-- The parts of a readable property. -/
theorem Readable.property {ts : List Token} {p : PropertyBody} (h : propertyBody? ts = some p)
    (hts : Readable ts) : Readable p.lead ∧ p.opener.isReadable = true
      ∧ Readable p.enclosed.inside ∧ p.enclosed.close.isReadable = true
      ∧ Readable p.enclosed.tail := by
  rw [← whole_of_propertyBody? h, PropertyBody.whole, readable_append_iff, readable_cons_iff,
    Readable.whole] at hts
  exact hts

theorem readable_withGetter {p : PropertyBody} (h : Readable p.whole) :
    Readable p.withGetter := by
  have hget : (Token.identifier "get").isReadable = true := by decide
  rw [PropertyBody.whole, readable_append_iff, readable_cons_iff] at h
  unfold PropertyBody.withGetter
  simp only [readable_append_iff, readable_cons_iff]
  exact ⟨⟨h.1, readable_gapAfter _⟩, hget, readable_parentheses readable_nil, isReadable_space,
    h.2⟩

theorem readable_withoutBraces {p : PropertyBody} (h : Readable p.whole) :
    Readable (p.withoutBraces .default) := by
  rw [PropertyBody.whole, readable_append_iff, readable_cons_iff, Readable.whole] at h
  unfold PropertyBody.withoutBraces
  simp only [readable_append_iff]
  exact ⟨h.1.dropEndIf _, readable_openGetter (readable_openSetter (h.2.2.1.unclosed _)),
    h.2.2.2.2⟩

theorem readable_suffixed {keyword keyword' : Token} {edited : List Token}
    (h : suffixed? .default keyword ts = some (keyword', edited))
    (hk : keyword.isReadable = true) (hts : Readable ts) :
    keyword'.isReadable = true ∧ Readable edited := by
  have hval : constantKeyword.isReadable = true := by decide
  obtain ⟨p, hp, hcase⟩ := suffixed?_eq_some h
  rw [← whole_of_propertyBody? hp] at hts
  rcases hcase with ⟨-, rfl, rfl⟩ | ⟨settable, -, rfl, rfl⟩
  · exact ⟨hval, readable_withGetter hts⟩
  · refine ⟨?_, readable_withoutBraces hts⟩
    split
    · exact hk
    · exact hval

/-- **Every rewrite keeps a list readable**, with the default settings. -/
theorem Rewrite.readable (h : Rewrite .default stage as bs) (ha : Readable as) : Readable bs := by
  cases h with
  | nameArgument pre colon post hc hr =>
    simp only [readable_append_iff, readable_cons_iff] at ha ⊢
    exact ⟨ha.1, readable_equalsSign _ _, ha.2.2⟩
  | dropLabel pre separator parameter bare post hs hp =>
    obtain ⟨trivia, label, spacing, rest, rfl, rfl, -⟩ := unlabelled?_eq_some hp
    simp only [readable_append_iff, readable_cons_iff] at ha ⊢
    exact ⟨ha.1, ha.2.1, ⟨ha.2.2.1.1, ha.2.2.1.2.2.2⟩, ha.2.2.2⟩
  | returnArrow pre keyword ts s hk hs =>
    rw [← whole_of_signature? hs, Signature.whole] at ha
    simp only [readable_append_iff, readable_cons_iff] at ha ⊢
    exact ⟨ha.1, ha.2.1, ha.2.2.1.dropSpacingEnd, isReadable_colon, readable_gapBefore _,
      ha.2.2.2.2⟩
  | suffixAccessors pre keyword ts keyword' edited hk hs =>
    rw [readable_append_iff, readable_cons_iff] at ha ⊢
    exact ⟨ha.1, readable_suffixed hs ha.2.1 ha.2.2⟩
  | relocateSetter pre modifier ts line after hm hr hl hend =>
    obtain ⟨before, opener, word, closer, behind, rfl, -⟩ := restricted?_eq_some hr
    simp only [readable_append_iff, readable_cons_iff] at ha ⊢
    obtain ⟨hpre, hmod, -, -, -, -, -, hline, hafter⟩ := ha
    exact ⟨hpre, hline, readable_setterLine hpre hmod hafter, hafter⟩
  | markLateInit pre keyword ts us hk hu =>
    have hlateinit : (Token.keyword "lateinit").isReadable = true := by decide
    obtain ⟨n, type, mark, rest, -, rfl, rfl, -⟩ := unmarked?_eq_some hu
    unfold lateInitModifier
    simp only [readable_append_iff, readable_cons_iff] at ha ⊢
    exact ⟨ha.1, ⟨hlateinit, isReadable_space, readable_nil⟩, ha.2.1, ha.2.2.1, ha.2.2.2.1,
      ha.2.2.2.2.2⟩

theorem Stage.readable_applyAll (stages : List Stage) (h : Readable ts) :
    Readable (Stage.applyAll .default stages ts) :=
  Stage.applyAll_preserves stages (fun _ _ _ _ hr ha => hr.readable ha) ts h

end Kotlinize
