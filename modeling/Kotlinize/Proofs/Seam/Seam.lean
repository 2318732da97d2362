import Kotlinize.Proofs.Seam.Apart

namespace Kotlinize

/-!
# Seams

Where an edit takes tokens away without putting spacing in their place, what stood apart before
stands side by side.  Such a place is a seam, and only the stages over properties make any.

* `Seam` — a place where an edit lets two runs of tokens meet.
* `PropertyBody.seams` — the seams of a property that gets its accessors;
  `apart_suffixed_iff` — what such a property becomes is apart exactly if they are.
* `apart_relocateSetter_iff`, `apart_markLateInit_iff` — the same for the other two rewrites of
  properties, which make one seam each.
-/

variable {config : Config} {as bs ts : List Token}

/-- A place where an edit lets two runs of tokens meet. -/
structure Seam where
  left : List Token
  right : List Token

/-- Whether no token in front of the seam runs on into what now stands behind it. -/
def Seam.apart (s : Seam) : Bool := Kotlinize.apart (spelling s.right) s.left

/-! ### Accessors behind the type -/

/-- The tokens inside the braces of a property as they stand behind its type. -/
def PropertyBody.accessors (config : Config) (p : PropertyBody) : List Token :=
  openGetter (openSetter config (unclosed p.enclosed.inside p.enclosed.tail))

/-- The seams of a property whose accessors leave their braces: in the place of the opening
    brace, and in that of the closing one. -/
def PropertyBody.seams (config : Config) (p : PropertyBody) : List Seam :=
  match p.form with
  | .accessors _ =>
    [⟨dropEndIf Token.isWhitespace p.lead, p.accessors config ++ p.enclosed.tail⟩,
      ⟨p.accessors config, p.enclosed.tail⟩]
  | .getter | .other => []

theorem runsOn_of_isVariableKeyword {t : Token} (h : isVariableKeyword t = true)
    (rest : List Char) : t.runsOn rest = rest.head?.any isNamePart := by
  obtain ⟨hk, ht⟩ := Token.is_iff.1 h
  rw [Token.runsOn, hk, ht]
  rfl

theorem runsOn_constantKeyword (rest : List Char) :
    constantKeyword.runsOn rest = rest.head?.any isNamePart := rfl

/-- A typed name has at least two tokens. -/
theorem typedName_eq_cons {ts : List Token} {n : TypedName} (h : typedName? ts = some n) :
    ∃ t more, n.lead = t :: more ∧ more ≠ [] := by
  obtain ⟨before, name, between, colon, behind, hn, -⟩ := typedName?_eq_some h
  rw [hn]
  cases before with
  | nil => exact ⟨name, _, rfl, by simp⟩
  | cons t before => exact ⟨t, _, rfl, by simp⟩

/-- A property has at least two tokens in front of its braces. -/
theorem lead_eq_cons {ts : List Token} {p : PropertyBody} (h : propertyBody? ts = some p) :
    ∃ t more, p.lead = t :: more ∧ more ≠ [] := by
  obtain ⟨n, type, trivia, rest, hn, hlead, -⟩ := propertyBody?_eq_some h
  obtain ⟨t, more, hn', hmore⟩ := typedName_eq_cons hn
  refine ⟨t, more ++ (type ++ trivia), ?_, List.append_ne_nil_of_left_ne_nil hmore _⟩
  rw [hlead, hn']
  rfl

theorem dropEndIf_cons {q : Token → Bool} {t : Token} (h : ts ≠ []) :
    dropEndIf q (t :: ts) = t :: dropEndIf q ts := by
  obtain ⟨u, us, rfl⟩ := List.exists_cons_of_ne_nil h
  unfold dropEndIf
  rw [List.getLast?_cons_cons]
  split <;> rfl

theorem head?_spelling_cons {t : Token} (h : t.isReadable = true) (ts : List Token)
    (rest : List Char) : (spelling (t :: ts) ++ rest).head? = t.text.toList.head? := by
  obtain ⟨c, cs, hcs⟩ := List.exists_cons_of_ne_nil (Token.ne_nil_of_isReadable h)
  rw [spelling_cons, hcs]
  rfl

/-- Where a property is changed, its first token stays. -/
theorem head?_suffixed {keyword keyword' : Token} {edited : List Token}
    (h : suffixed? .default keyword ts = some (keyword', edited)) (hr : Readable ts) :
    (spelling edited).head? = (spelling ts).head? := by
  obtain ⟨p, hp, hcase⟩ := suffixed?_eq_some h
  obtain ⟨t, more, hlead, hmore⟩ := lead_eq_cons hp
  have hts : ts = t :: (more ++ p.opener :: p.enclosed.whole) := by
    rw [← whole_of_propertyBody? hp, PropertyBody.whole, hlead]
    rfl
  have ht : t.isReadable = true := hr t (by rw [hts]; exact List.mem_cons_self)
  have hhead : ∀ us : List Token, (spelling (t :: us)).head? = t.text.toList.head? := by
    intro us
    have h := head?_spelling_cons ht us []
    rwa [List.append_nil] at h
  -- Both forms keep the tokens in front of the braces, but for a blank at their end.
  rw [hts, hhead]
  rcases hcase with ⟨-, -, rfl⟩ | ⟨settable, -, -, rfl⟩
  · rw [PropertyBody.withGetter, hlead]
    exact hhead _
  · rw [PropertyBody.withoutBraces, hlead, dropEndIf_cons hmore]
    exact hhead _

/-- A variable keyword that is changed runs on no more than before. -/
theorem runsOn_suffixed {keyword keyword' : Token} {edited : List Token}
    (h : suffixed? .default keyword ts = some (keyword', edited))
    (hk : isVariableKeyword keyword = true) (hr : Readable ts) :
    keyword'.runsOn (spelling edited) = keyword.runsOn (spelling ts) := by
  have hkeyword : keyword'.runsOn (spelling edited) = (spelling edited).head?.any isNamePart := by
    obtain ⟨p, -, hcase⟩ := suffixed?_eq_some h
    rcases hcase with ⟨-, rfl, -⟩ | ⟨settable, -, rfl, -⟩
    · exact runsOn_constantKeyword _
    · split
      · exact runsOn_of_isVariableKeyword hk _
      · exact runsOn_constantKeyword _
  rw [hkeyword, head?_suffixed h hr, runsOn_of_isVariableKeyword hk]

theorem halts_brace {t : Token} (h : Bracket.curly.opens t = true ∨ Bracket.curly.closes t = true)
    (rest : List Char) : halts (t.text.toList ++ rest) = true := by
  rcases h with h | h <;> rw [(Token.is_iff.1 h).2] <;> rfl

/-- A property is apart if its parts are: its braces are stops. -/
theorem apart_whole_iff {p : PropertyBody} (ho : Bracket.curly.opens p.opener = true)
    (hc : Bracket.curly.closes p.enclosed.close = true) (rest : List Char) :
    apart rest p.whole = true ↔ apart [] p.lead = true ∧ apart [] p.enclosed.inside = true
      ∧ apart rest p.enclosed.tail = true := by
  rw [PropertyBody.whole, Enclosed.whole, apart_append_iff, apart_cons_iff, apart_append_iff,
    apart_cons_iff, and_iff_right (runsOn_of_opens ho _), and_iff_right (runsOn_of_closes hc _),
    spelling_cons, spelling_cons, List.append_assoc, List.append_assoc,
    apart_of_halts (halts_brace (Or.inl ho) _), apart_of_halts (halts_brace (Or.inr hc) _)]

theorem apart_withGetter {p : PropertyBody} (hr : Readable p.lead)
    (ha : apart [] p.whole = true) : apart [] p.withGetter = true := by
  rw [PropertyBody.whole] at ha
  have hbody : apart [] (p.opener :: p.enclosed.whole) = true := apart_right ha
  unfold PropertyBody.withGetter
  rw [apart_append_iff, apart_gapAfter hr]
  refine ⟨apart_left ha, ?_⟩
  show apart [] (.identifier "get" :: Bracket.round.openToken :: Bracket.round.closeToken
    :: .space :: p.opener :: p.enclosed.whole) = true
  simp only [apart_cons_iff]
  refine ⟨runsOn_of_halts rfl _, runsOn_of_opens (b := .round) rfl _,
    runsOn_of_closes (b := .round) rfl _, runsOn_of_isSpacing rfl _, ?_⟩
  exact apart_cons_iff.1 hbody

/-- **A property is apart after its change** if and only if its seams are. -/
theorem apart_suffixed_iff {keyword keyword' : Token} {edited : List Token} {p : PropertyBody}
    (h : suffixed? .default keyword ts = some (keyword', edited))
    (hk : isVariableKeyword keyword = true) (hp : propertyBody? ts = some p) (hr : Readable ts)
    (ha : apart [] (keyword :: ts) = true) :
    apart [] (keyword' :: edited) = true ↔ ∀ s ∈ p.seams .default, s.apart = true := by
  rw [apart_cons_iff, List.append_nil] at ha
  rw [apart_cons_iff, List.append_nil, runsOn_suffixed h hk hr, and_iff_right ha.1]
  obtain ⟨p', hp', hcase⟩ := suffixed?_eq_some h
  obtain rfl : p = p' := Option.some.inj (hp.symm.trans hp')
  rw [← whole_of_propertyBody? hp] at ha
  rcases hcase with ⟨hf, -, rfl⟩ | ⟨settable, hf, -, rfl⟩
  · rw [PropertyBody.seams, hf]
    -- A getter makes no seam.
    have hlead := (Readable.property hp hr).1
    exact iff_of_true (apart_withGetter hlead ha.2) nofun
  · rw [PropertyBody.seams, hf]
    show _ ↔ ∀ s ∈ [(_ : Seam), _], s.apart = true
    rw [List.forall_mem_cons, List.forall_mem_singleton]
    show apart [] (dropEndIf Token.isWhitespace p.lead
      ++ (p.accessors .default ++ p.enclosed.tail)) = true ↔ _
    have hwhole :=
      (apart_whole_iff (opens_of_propertyBody? hp) (closes_of_propertyBody? hp) []).1 ha.2
    rw [apart_append_iff, apart_append_iff, List.append_nil, List.append_nil,
      and_iff_left hwhole.2.2]
    rfl

/-! ### The accessors themselves -/

theorem apart_openGetter (hr : Readable ts) (ha : apart [] ts = true) :
    apart [] (openGetter ts) = true := by
  unfold openGetter
  split
  · exact ha
  · rename_i a h
    rw [← (of_accessorAt? h).1, Accessor.whole] at hr ha
    have hbefore : Readable a.before := (readable_append_iff.1 hr).1
    have hafter := (apart_cons_iff.1 (apart_right ha)).2
    rw [apart_append_iff, apart_gapAfter hbefore]
    refine ⟨apart_left ha, ?_⟩
    show apart [] (a.word :: Bracket.round.openToken :: Bracket.round.closeToken :: a.after) = true
    simp only [apart_cons_iff]
    exact ⟨runsOn_of_halts rfl _, runsOn_of_opens (b := .round) rfl _,
      runsOn_of_closes (b := .round) rfl _, hafter⟩

theorem apart_openSetter (ha : apart [] ts = true) : apart [] (openSetter config ts) = true := by
  unfold openSetter
  split
  · exact ha
  · rename_i a h
    split
    · rw [← (of_accessorAt? h).1, Accessor.whole] at ha
      have hafter := (apart_cons_iff.1 (apart_right ha)).2
      have hparameter : halts (spelling (parentheses
          [.identifier config.implicitSetterParameter] ++ a.after)) = true := rfl
      rw [apart_append_iff] at ha ⊢
      refine ⟨?_, ?_⟩
      · -- Only the word of the setter matters to what stands in front of it.
        rw [List.append_nil, spelling_cons] at ha ⊢
        rw [apart_append_of_halts hparameter]
        exact apart_of_append ha.1
      · show apart [] (a.word :: Bracket.round.openToken
          :: .identifier config.implicitSetterParameter :: Bracket.round.closeToken :: a.after)
          = true
        simp only [apart_cons_iff]
        exact ⟨runsOn_of_halts rfl _, runsOn_of_opens (b := .round) rfl _, runsOn_of_halts rfl _,
          runsOn_of_closes (b := .round) rfl _, hafter⟩
    · exact ha

theorem apart_unclosed (hr : Readable ts) (tail : List Token) (ha : apart [] ts = true) :
    apart [] (unclosed ts tail) = true := by
  have htrimmed : apart [] (dropEndIf Token.isWhitespace ts) = true := by
    rw [apart_dropEndIf hr fun _ => isSpacing_of_isWhitespace]
    exact ha
  unfold unclosed
  split
  · rw [apart_dropEndIf (hr.dropEndIf _) fun _ => isSpacing_of_isLinebreak]
    exact htrimmed
  · exact htrimmed

/-- The accessors of a property are apart as they were inside the braces. -/
theorem apart_accessors {p : PropertyBody} (hr : Readable p.enclosed.inside)
    (ha : apart [] p.enclosed.inside = true) : apart [] (p.accessors .default) = true :=
  apart_openGetter (readable_openSetter (hr.unclosed _))
    (apart_openSetter (apart_unclosed hr _ ha))

/-! ### Setters behind the line -/

/-- The end of a line halts what stands in front of it. -/
theorem halts_lineEnd (hr : Readable ts) (h : ts.head?.all Token.isLinebreak = true) :
    halts (spelling ts) = true := by
  cases ts with
  | nil => rfl
  | cons t ts =>
    rw [spelling_cons]
    exact halts_of_isSpacing (hr t List.mem_cons_self) (isSpacing_of_isLinebreak h) _

theorem isSpacing_lineEnd {after : List Token} (h : after.head?.all Token.isLinebreak = true) :
    (after.head?.getD .newline).isSpacing = true :=
  isSpacing_of_isLinebreak (isLinebreak_lineEnd h)

/-- The line of a setter halts what stands in front of it. -/
theorem halts_setterLine {head? : Option Token} {modifier : Token} {after : List Token}
    (hr : Readable (setterLine .default head? modifier after))
    (hend : after.head?.all Token.isLinebreak = true) (rest : List Token) :
    halts (spelling (setterLine .default head? modifier after ++ rest)) = true := by
  unfold setterLine at hr ⊢
  rw [List.cons_append, spelling_cons]
  exact halts_of_isSpacing (readable_cons_iff.1 hr).1 (isSpacing_lineEnd hend) _

/-- The line of a setter keeps its tokens apart. -/
theorem apart_setterLine {head? : Option Token} {modifier : Token} {after : List Token}
    (hr : Readable after) (hend : after.head?.all Token.isLinebreak = true)
    (ha : apart [] after = true) :
    apart [] (setterLine .default head? modifier after ++ after) = true := by
  unfold setterLine
  simp only [List.cons_append, List.nil_append, apart_cons_iff]
  refine ⟨runsOn_of_isSpacing (isSpacing_lineEnd hend) _, runsOn_of_isSpacing rfl _,
    runsOn_of_halts rfl _, runsOn_of_isSpacing rfl _, runsOn_of_halts ?_ _, ha⟩
  rw [List.append_nil]
  exact halts_lineEnd hr hend

/-- **A line is apart after the modifier in front of it is moved behind it** if and only if
    what stands in front of the modifier is apart from the line. -/
theorem apart_relocateSetter_iff {pre ts line after : List Token} {modifier : Token}
    (hrs : restricted? ts = some (line ++ after)) (hend : after.head?.all Token.isLinebreak = true)
    (hr : Readable (pre ++ modifier :: ts)) (ha : apart [] (pre ++ modifier :: ts) = true) :
    apart [] (pre ++ (line ++ (setterLine .default (lineHead? pre) modifier after ++ after)))
      = true ↔ (Seam.mk pre line).apart = true := by
  obtain ⟨before, opener, word, closer, behind, rfl, -⟩ := restricted?_eq_some hrs
  have hlist : pre ++ modifier :: (before ++ opener :: word :: closer
      :: (behind ++ (line ++ after))) = (pre ++ modifier :: (before ++ opener :: word :: closer
      :: behind)) ++ (line ++ after) := by simp
  simp only [readable_append_iff, readable_cons_iff] at hr
  obtain ⟨hpre, hmod, -, -, -, -, -, -, hafter⟩ := hr
  rw [hlist] at ha
  have hdecl : apart [] (line ++ after) = true := apart_right ha
  -- The line of the setter starts with a line end, so it makes no seam of its own.
  have hhalt := halts_setterLine (readable_setterLine hpre hmod hafter) hend after
  have hsetter : apart [] (setterLine .default (lineHead? pre) modifier after ++ after) = true :=
    apart_setterLine hafter hend (apart_right hdecl)
  have hline : apart (spelling (setterLine .default (lineHead? pre) modifier after ++ after)) line
      = true := by
    rw [apart_of_halts hhalt]
    exact apart_left hdecl
  rw [apart_append_iff, apart_append_iff, List.append_nil, List.append_nil, and_iff_left hsetter,
    and_iff_left hline, spelling_append line, apart_append_of_halts hhalt]
  rfl

/-! ### Marks in front of the property -/

/-- The seam in the place of the mark behind the type of a late-initialised property. -/
def markSeam (ts : List Token) : List Seam :=
  match typedName? ts with
  | none => []
  | some n =>
    [⟨n.lead ++ n.type.takeWhile (isTypeToken lateInitTypeMarks),
      (n.type.dropWhile (isTypeToken lateInitTypeMarks)).drop 1⟩]

/-- The seam is where the mark stood: between the type and what followed the mark. -/
theorem markSeam_eq {ts us : List Token} (h : unmarked? ts = some us) :
    ∃ n type mark rest, typedName? ts = some n ∧ ts = n.lead ++ (type ++ mark :: rest)
      ∧ us = n.lead ++ (type ++ rest) ∧ (∀ t ∈ type, isTypeToken lateInitTypeMarks t = true)
      ∧ markSeam ts = [⟨n.lead ++ type, rest⟩] := by
  obtain ⟨n, type, mark, rest, hn, hts, hus, -, htype, hmark⟩ := unmarked?_eq_some h
  refine ⟨n, type, mark, rest, hn, hts, hus, htype, ?_⟩
  -- The mark itself is not taken for a part of the type.
  have hstop : isTypeToken lateInitTypeMarks mark = false := by
    obtain ⟨hkind, htext⟩ := Token.is_iff.1 hmark
    rw [isTypeToken, Token.isIdentifier, hkind, htext]
    decide
  have hrest : n.type = type ++ mark :: rest := by
    have hw : n.lead ++ n.type = n.lead ++ (type ++ mark :: rest) := by
      rw [← hts]
      exact whole_of_typedName? hn
    exact List.append_cancel_left hw
  rw [markSeam, hn]
  show [(⟨n.lead ++ n.type.takeWhile _, (n.type.dropWhile _).drop 1⟩ : Seam)] = _
  rw [hrest, List.takeWhile_append_of_pos htype, List.dropWhile_append_of_pos htype,
    List.takeWhile_cons, List.dropWhile_cons, hstop, if_neg Bool.false_ne_true,
    if_neg Bool.false_ne_true, List.append_nil, List.drop_one, List.tail_cons]

/-- **A late-initialised property is apart after its mark is gone** if and only if its type is
    apart from what stood behind the mark. -/
theorem apart_markLateInit_iff {ts us : List Token} {keyword : Token}
    (hk : isVariableKeyword keyword = true) (hu : unmarked? ts = some us) (hr : Readable ts)
    (ha : apart [] (keyword :: ts) = true) :
    apart [] (lateInitModifier ++ keyword :: us) = true ↔ ∀ s ∈ markSeam ts, s.apart = true := by
  obtain ⟨n, type, mark, rest, hn, rfl, rfl, -, hseam⟩ := markSeam_eq hu
  obtain ⟨t, more, hlead, -⟩ := typedName_eq_cons hn
  have ht : t.isReadable = true := hr t (by rw [hlead]; simp)
  rw [apart_cons_iff, List.append_nil] at ha
  -- The name follows the keyword as before.
  have hkeyword : keyword.runsOn (spelling (n.lead ++ (type ++ rest))) = false := by
    have hrun := ha.1
    rw [runsOn_of_isVariableKeyword hk, hlead, List.cons_append, spelling_cons] at hrun ⊢
    obtain ⟨c, cs, hcs⟩ := List.exists_cons_of_ne_nil (Token.ne_nil_of_isReadable ht)
    rw [hcs] at hrun ⊢
    exact hrun
  have hbehind : apart [] rest = true := by
    have hlist : n.lead ++ (type ++ mark :: rest) = (n.lead ++ type ++ [mark]) ++ rest := by simp
    rw [hlist] at ha
    exact apart_right ha.2
  rw [hseam, List.forall_mem_singleton]
  show apart [] (.keyword "lateinit" :: .space :: keyword :: (n.lead ++ (type ++ rest))) = true
    ↔ apart (spelling rest) (n.lead ++ type) = true
  simp only [apart_cons_iff, List.append_nil]
  rw [and_iff_right (runsOn_of_halts rfl _), and_iff_right (runsOn_of_isSpacing rfl _),
    and_iff_right hkeyword, ← List.append_assoc, apart_append_iff, List.append_nil,
    and_iff_left hbehind]

end Kotlinize
