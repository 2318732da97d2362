import Kotlinize.Proofs.Seam.Pairing
import Kotlinize.Proofs.Seam.Seam

namespace Kotlinize

/-!
# The seams of the pass for accessors

The pass makes seams property by property, each in what the properties in front of it have left.
Its result is apart if and only if every one of them is: no later change mends a seam, because a
change starts behind a keyword and takes braces in pairs.

* `accessorSeams` — the seams of the pass.
* `KeepsSeams`, `keepsSeams` — a seam behind paired tokens is still there after the pass.  Paired
  tokens are what keeps the induction going: a property that reaches over the seam would have one
  of its braces in front of it.
* `apart_suffixAccessors_iff` — the result of the pass.
-/

variable {config : Config} {as bs ts : List Token}

theorem exists_spelling_isVariableKeyword {t : Token} (h : isVariableKeyword t = true)
    (ts : List Token) : ∃ more, spelling (t :: ts) = 'v' :: more := by
  rw [spelling_cons, (Token.is_iff.1 h).2]
  exact ⟨_, rfl⟩

/-! ### The pass for accessors -/

/-- The seams of the property, if any, that a variable keyword followed by `ts` declares. -/
def propertySeams (config : Config) (ts : List Token) : List Seam :=
  match propertyBody? ts with
  | none => []
  | some p => p.seams config

/-- The seams that the pass for accessors makes, property by property from the front. -/
def accessorSeams (config : Config) : List Token → List Seam
  | [] => []
  | t :: ts =>
    if _hv : isVariableKeyword t then
      match _h : suffixed? config t ts with
      | some (_, edited) => propertySeams config ts ++ accessorSeams config edited
      | none => accessorSeams config ts
    else accessorSeams config ts
termination_by ts => ts.length + 6 * variableCount ts
decreasing_by
  · have h₁ : variableCount edited ≤ variableCount ts := variableCount_suffixed?_le _h
    have h₂ : edited.length ≤ ts.length + 5 := length_suffixed?_le _h
    simp only [variableCount_cons, List.length_cons, _hv, if_true]
    omega
  · simp only [variableCount_cons, List.length_cons]
    omega
  · simp only [variableCount_cons, List.length_cons]
    omega

theorem accessorSeams_of_some {t keyword : Token} {edited : List Token}
    (hk : isVariableKeyword t = true) (h : suffixed? config t ts = some (keyword, edited)) :
    accessorSeams config (t :: ts) = propertySeams config ts ++ accessorSeams config edited := by
  rw [accessorSeams, dif_pos hk]
  split
  · rename_i h'
    rw [h] at h'
    cases h'
    rfl
  · rename_i h'
    rw [h] at h'
    cases h'

theorem accessorSeams_of_none {t : Token}
    (h : isVariableKeyword t = true → suffixed? config t ts = none) :
    accessorSeams config (t :: ts) = accessorSeams config ts := by
  rw [accessorSeams]
  split
  · rename_i hk
    split
    · rename_i h'
      rw [h hk] at h'
      cases h'
    · rfl
  · rfl

/-- The pass changes nothing up to the first letter of the first keyword that it changes. -/
theorem sameStart_suffixAccessors (config : Config) (ts : List Token) :
    SameStart (spelling (suffixAccessors config ts).tokens) (spelling ts) := by
  fun_induction suffixAccessors config ts with
  | case1 => exact .refl _
  | case2 t ts hk keyword edited hs ih =>
    have hkeyword : ∃ more, spelling (keyword :: (suffixAccessors config edited).tokens)
        = 'v' :: more := by
      obtain ⟨p, -, hcase⟩ := suffixed?_eq_some hs
      rcases hcase with ⟨-, rfl, -⟩ | ⟨settable, -, rfl, -⟩
      · exact ⟨_, rfl⟩
      · split
        · exact exists_spelling_isVariableKeyword hk _
        · exact ⟨_, rfl⟩
    obtain ⟨more, hmore⟩ := hkeyword
    obtain ⟨more', hmore'⟩ := exists_spelling_isVariableKeyword hk ts
    show SameStart (spelling (keyword :: (suffixAccessors config edited).tokens)) _
    rw [hmore, hmore']
    exact .initial [] 'v' 'v' more more' (by decide) (by decide)
  | case3 t ts hk hs ih | case4 t ts hk ih =>
    show SameStart (spelling (t :: (suffixAccessors config ts).tokens)) _
    rw [spelling_cons, spelling_cons]
    exact ih.append _

/-- The pass leaves tokens without a keyword alone. -/
theorem suffixAccessors_append (config : Config)
    (h : ∀ t ∈ as, isVariableKeyword t = false) (bs : List Token) :
    (suffixAccessors config (as ++ bs)).tokens = as ++ (suffixAccessors config bs).tokens := by
  induction as with
  | nil => rfl
  | cons t as ih =>
    have ht : ¬ isVariableKeyword t = true := by
      rw [h t List.mem_cons_self]
      exact Bool.false_ne_true
    rw [List.cons_append, suffixAccessors, dif_neg ht, Edited.tokens_cons,
      ih fun u hu => h u (List.mem_cons_of_mem t hu)]
    rfl

/-! ### The braces inside a property -/

/-- The accessors of a property have their braces in pairs. -/
theorem paired_accessors {p : PropertyBody} (h : propertyBody? ts = some p) :
    paired (p.accessors config) = true := by
  obtain ⟨_, _, _, rest, _, _, _, _, _, he⟩ := propertyBody?_eq_some h
  have hbraces : (p.accessors config).filter isBrace = p.enclosed.inside.filter isBrace := by
    rw [PropertyBody.accessors, bystander_isBrace.filter_openGetter,
      bystander_isBrace.filter_openSetter, bystander_isBrace.spacing.filter_unclosed]
  rw [paired_congr hbraces]
  exact paired_inside he

/-! ### The pass mends no seam -/

/-- A seam behind paired tokens of a text is still there after the pass. -/
def KeepsSeams (ts : List Token) : Prop :=
  ∀ as bs, ts = as ++ bs → paired as = true → apart [] as = true →
    apart (spelling bs) as = false → apart [] (suffixAccessors .default ts).tokens = false

/-- What is not apart in front of the braces of a property stays so. -/
theorem apart_lead_of_suffixAccessors {keyword keyword' : Token} {edited : List Token}
    {p : PropertyBody} (h : suffixed? .default keyword ts = some (keyword', edited))
    (hp : propertyBody? ts = some p) (hr : Readable ts)
    (ha : apart [] (suffixAccessors .default edited).tokens = true) : apart [] p.lead = true := by
  have hlead := (Readable.property hp hr).1
  obtain ⟨p', hp', hcase⟩ := suffixed?_eq_some h
  obtain rfl : p = p' := Option.some.inj (hp.symm.trans hp')
  -- In front of the braces stands no keyword, so the pass leaves the lead alone.
  rcases hcase with ⟨-, -, rfl⟩ | ⟨settable, -, -, rfl⟩
  · rw [PropertyBody.withGetter, List.append_assoc,
      suffixAccessors_append _ fun t ht =>
        isVariableKeyword_of_isInert (isInert_lead hp t ht)] at ha
    exact apart_left ha
  · rw [PropertyBody.withoutBraces, suffixAccessors_append _ fun t ht =>
      isVariableKeyword_of_isInert (isInert_dropEndIf_lead hp t ht)] at ha
    rw [← apart_dropEndIf hlead fun _ => isSpacing_of_isWhitespace]
    exact apart_left ha

/-- The seams of a property whose accessors leave their braces are still there after the pass. -/
theorem apart_seams_of_suffixAccessors {p : PropertyBody} (hp : propertyBody? ts = some p)
    (hr : Readable ts) (hinside : apart [] p.enclosed.inside = true)
    (hkeeps : KeepsSeams (p.withoutBraces .default))
    (ha : apart [] (suffixAccessors .default (p.withoutBraces .default)).tokens = true) :
    apart (spelling (p.accessors .default ++ p.enclosed.tail))
        (dropEndIf Token.isWhitespace p.lead) = true
      ∧ apart (spelling p.enclosed.tail) (p.accessors .default) = true := by
  have hinert := isInert_dropEndIf_lead hp
  -- What follows the first seam starts after the pass as it starts before it.
  have hfirst : apart (spelling (p.accessors .default ++ p.enclosed.tail))
      (dropEndIf Token.isWhitespace p.lead) = true := by
    have hpass := ha
    rw [PropertyBody.withoutBraces, suffixAccessors_append _ fun t ht =>
      isVariableKeyword_of_isInert (hinert t ht), apart_append_iff, List.append_nil,
      (sameStart_suffixAccessors _ _).apart_eq] at hpass
    exact hpass.1
  refine ⟨hfirst, ?_⟩
  rw [← Bool.not_eq_false]
  intro hsecond
  -- In front of the second seam stand the type and the accessors, with their braces in pairs.
  have hfalse := hkeeps (dropEndIf Token.isWhitespace p.lead ++ p.accessors .default)
    p.enclosed.tail (List.append_assoc _ _ _).symm ?_ ?_ ?_
  · rw [hfalse] at ha
    cases ha
  · exact paired_append (paired_of_isInert hinert) (paired_accessors hp)
  · rw [spelling_append] at hfirst
    rw [apart_append_iff, List.append_nil]
    exact ⟨apart_of_append hfirst, apart_accessors (Readable.property hp hr).2.2.1 hinside⟩
  · apply Bool.eq_false_iff.2
    intro h
    rw [apart_right h] at hsecond
    cases hsecond

/-- A property with more text behind its braces. -/
def PropertyBody.append (p : PropertyBody) (bs : List Token) : PropertyBody :=
  ⟨p.lead, p.opener, p.enclosed.inside, p.enclosed.close, p.enclosed.tail ++ bs⟩

theorem PropertyBody.withGetter_append (p : PropertyBody) (bs : List Token) :
    (p.append bs).withGetter = p.withGetter ++ bs := by
  simp [append, withGetter, Enclosed.whole]

/-- Where paired tokens of a text end, a property either has not come to its braces, or both of
    them are passed. -/
theorem property_cut {p : PropertyBody} (hp : propertyBody? ts = some p) (hts : ts = as ++ bs)
    (hpaired : paired as = true) :
    (∃ more, p.lead = as ++ more ∧ bs = more ++ p.opener :: p.enclosed.whole)
      ∨ ∃ q : PropertyBody, as = q.whole ∧ p = q.append bs := by
  obtain ⟨_, _, _, rest, _, _, _, _, ho, he⟩ := propertyBody?_eq_some hp
  have hw : p.lead ++ p.opener :: p.enclosed.whole = as ++ bs := by
    rw [← hts]
    exact whole_of_propertyBody? hp
  -- The cut is either behind the lead or in it.
  rcases List.append_eq_append_iff.1 hw with ⟨more, has, hbs⟩ | ⟨more, hlead, hbs⟩
  · cases more with
    | nil =>
      rw [List.append_nil] at has
      exact Or.inl ⟨[], by rw [has, List.append_nil], hbs.symm⟩
    | cons t more =>
      obtain ⟨rfl, hwhole⟩ := List.cons.inj hbs
      right
      -- The opening brace is one of the paired tokens, so its partner is so too.
      rw [has] at hpaired
      obtain ⟨e, hpartner⟩ :=
        Option.isSome_iff_exists.1 ((paired_cons_iff.1 (paired_right hpaired)).1 ho)
      have hrest : rest = more ++ bs := (Bracket.whole_of_enclosed? he).symm.trans hwhole
      rw [hrest, enclosed?_append hpartner] at he
      have henclosed : p.enclosed = ⟨e.inside, e.close, e.tail ++ bs⟩ :=
        (Option.some.inj he).symm
      refine ⟨⟨p.lead, p.opener, e⟩, ?_, ?_⟩
      · rw [has, ← Bracket.whole_of_enclosed? hpartner]
        rfl
      · rw [PropertyBody.append, ← henclosed]
  · exact Or.inl ⟨more, hlead, hbs⟩

/-- A seam of a list whose first token does not run on is a seam of what follows that token. -/
theorem seam_of_cons {t : Token} (hts : t :: ts = as ++ bs) (hpaired : paired as = true)
    (ha : apart [] as = true) (hseam : apart (spelling bs) as = false)
    (hrun : t.runsOn (spelling ts) = false) :
    ∃ rest, ts = rest ++ bs ∧ paired rest = true ∧ apart [] rest = true
      ∧ apart (spelling bs) rest = false := by
  cases as with
  | nil => cases hseam
  | cons t' rest =>
    obtain ⟨rfl, rfl⟩ := List.cons.inj hts
    have hrun' : t.runsOn (spelling rest ++ spelling bs) = false := by
      rw [← spelling_append]
      exact hrun
    rw [apart, hrun'] at hseam
    exact ⟨rest, rfl, (paired_cons_iff.1 hpaired).2, (apart_cons_iff.1 ha).2, hseam⟩

/-- A seam behind the braces of a property is still there after the pass if the property gets a
    getter: a getter ends as the property did. -/
theorem seam_behind_getter {p : PropertyBody} (hr : Readable p.lead)
    (hpaired : paired p.whole = true) (ha : apart [] p.whole = true)
    (hseam : apart (spelling bs) p.enclosed.tail = false)
    (hkeeps : KeepsSeams (p.append bs).withGetter) :
    apart [] (suffixAccessors .default (p.append bs).withGetter).tokens = false := by
  refine hkeeps p.withGetter bs (p.withGetter_append bs) ?_ (apart_withGetter hr ha) ?_
  · rw [paired_congr (bystander_isBrace.filter_withGetter p)]
    exact hpaired
  · apply Bool.eq_false_iff.2
    intro h
    have hlist : p.withGetter = (p.lead ++ gapAfter p.lead ++ .identifier "get"
        :: (parentheses [] ++ .space :: p.opener :: (p.enclosed.inside ++ [p.enclosed.close])))
        ++ p.enclosed.tail := by
      simp [PropertyBody.withGetter, Enclosed.whole]
    rw [hlist] at h
    rw [apart_right h] at hseam
    cases hseam

/-- A seam behind the braces of a property is still there after the pass if the accessors leave
    their braces: either one of the new seams is not apart, or nothing hides the old one. -/
theorem seam_behind_accessors {p : PropertyBody} (hp : propertyBody? ts = some (p.append bs))
    (hr : Readable ts) (hpaired : paired p.whole = true) (ha : apart [] p.whole = true)
    (hseam : apart (spelling bs) p.enclosed.tail = false)
    (hkeeps : KeepsSeams ((p.append bs).withoutBraces .default)) :
    apart [] (suffixAccessors .default ((p.append bs).withoutBraces .default)).tokens
      = false := by
  apply Bool.eq_false_iff.2
  intro hpass
  have hopen := opens_of_propertyBody? hp
  have hclose := closes_of_propertyBody? hp
  have hparts := (apart_whole_iff (p := p) hopen hclose []).1 ha
  obtain ⟨hfirst, hsecond⟩ := apart_seams_of_suffixAccessors hp hr hparts.2.1 hkeeps hpass
  have htail : (p.append bs).enclosed.tail = p.enclosed.tail ++ bs := rfl
  rw [htail, ← List.append_assoc, spelling_append] at hfirst
  rw [htail, spelling_append] at hsecond
  have hfalse := hkeeps (dropEndIf Token.isWhitespace p.lead
    ++ ((p.append bs).accessors .default ++ p.enclosed.tail)) bs ?_ ?_ ?_ ?_
  · rw [hpass] at hfalse
    cases hfalse
  · rw [PropertyBody.withoutBraces, htail, List.append_assoc, List.append_assoc]
    rfl
  · have hinert := isInert_dropEndIf_lead hp
    have htail : paired p.enclosed.tail = true :=
      (paired_cons_iff.1 (paired_right (paired_cons_iff.1 (paired_right hpaired)).2)).2
    exact paired_append (paired_of_isInert hinert) (paired_append (paired_accessors hp) htail)
  · rw [apart_append_iff, apart_append_iff, List.append_nil, List.append_nil]
    exact ⟨apart_of_append hfirst, apart_of_append hsecond, hparts.2.2⟩
  · apply Bool.eq_false_iff.2
    intro h
    rw [apart_right (apart_right h)] at hseam
    cases hseam

/-- A seam in a property that is changed, or behind one, is still there after the pass. -/
theorem seam_of_suffixed {keyword keyword' : Token} {edited : List Token}
    (hs : suffixed? .default keyword ts = some (keyword', edited)) (hr : Readable ts)
    (hkeeps : KeepsSeams edited) (hts : ts = as ++ bs) (hpaired : paired as = true)
    (ha : apart [] as = true) (hseam : apart (spelling bs) as = false) :
    apart [] (suffixAccessors .default edited).tokens = false := by
  obtain ⟨p, hp, hcase⟩ := suffixed?_eq_some hs
  rcases property_cut hp hts hpaired with ⟨more, hlead, rfl⟩ | ⟨q, rfl, rfl⟩
  · -- The seam is in front of the braces, where the pass changes nothing.
    apply Bool.eq_false_iff.2
    intro hpass
    have hapart := apart_lead_of_suffixAccessors hs hp hr hpass
    have hbrace : halts (spelling (p.opener :: p.enclosed.whole)) = true := by
      rw [spelling_cons]
      exact halts_brace (Or.inl (opens_of_propertyBody? hp)) _
    rw [spelling_append, apart_append_of_halts hbrace] at hseam
    rw [hlead, apart_append_iff, List.append_nil, hseam] at hapart
    cases hapart.1
  · -- The seam is behind the braces.
    have hopen := opens_of_propertyBody? hp
    have hclose := closes_of_propertyBody? hp
    have hcut := apart_whole_iff (p := q) hopen hclose
    have hparts := (hcut []).1 ha
    have hbehind : apart (spelling bs) q.enclosed.tail = false := by
      apply Bool.eq_false_iff.2
      intro h
      rw [(hcut (spelling bs)).2 ⟨hparts.1, hparts.2.1, h⟩] at hseam
      cases hseam
    rcases hcase with ⟨-, -, rfl⟩ | ⟨settable, -, -, rfl⟩
    · exact seam_behind_getter (Readable.property hp hr).1 hpaired ha hbehind hkeeps
    · exact seam_behind_accessors hp hr hpaired ha hbehind hkeeps

/-- **The pass mends no seam.** -/
theorem keepsSeams (hr : Readable ts) : KeepsSeams ts := by
  unfold KeepsSeams
  fun_induction suffixAccessors .default ts with
  | case1 =>
    intro as bs hts _ _ hseam
    rw [(List.append_eq_nil_iff.1 hts.symm).1] at hseam
    cases hseam
  | case2 t ts hk keyword edited hs ih =>
    intro as bs hts hpaired ha hseam
    rw [readable_cons_iff] at hr
    show apart [] (keyword :: (suffixAccessors .default edited).tokens) = false
    apply Bool.eq_false_iff.2
    intro hpass
    -- The keyword runs on as before, so the seam is not behind it.
    rw [apart_cons_iff, List.append_nil, (sameStart_suffixAccessors _ _).runsOn_eq,
      runsOn_suffixed hs hk hr.2] at hpass
    obtain ⟨rest, hrest, hpaired, ha, hseam⟩ := seam_of_cons hts hpaired ha hseam hpass.1
    have hfalse := seam_of_suffixed hs hr.2 (ih (readable_suffixed hs hr.1 hr.2).2) hrest hpaired
      ha hseam
    rw [hpass.2] at hfalse
    cases hfalse
  | case3 t ts hk hs ih | case4 t ts hk ih =>
    intro as bs hts hpaired ha hseam
    rw [readable_cons_iff] at hr
    show apart [] (t :: (suffixAccessors .default ts).tokens) = false
    apply Bool.eq_false_iff.2
    intro hpass
    rw [apart_cons_iff, List.append_nil, (sameStart_suffixAccessors _ _).runsOn_eq] at hpass
    obtain ⟨rest, hrest, hpaired, ha, hseam⟩ := seam_of_cons hts hpaired ha hseam hpass.1
    have hfalse := ih hr.2 rest bs hrest hpaired ha hseam
    rw [hpass.2] at hfalse
    cases hfalse

/-- **What the pass for accessors leaves is apart** if and only if all its seams are. -/
theorem apart_suffixAccessors_iff (hr : Readable ts) (ha : apart [] ts = true) :
    apart [] (suffixAccessors .default ts).tokens = true
      ↔ ∀ s ∈ accessorSeams .default ts, s.apart = true := by
  fun_induction suffixAccessors .default ts with
  | case1 =>
    rw [accessorSeams]
    exact iff_of_true rfl (List.forall_mem_nil _)
  | case2 t ts hk keyword edited hs ih =>
    rw [readable_cons_iff] at hr
    obtain ⟨p, hp, hcase⟩ := suffixed?_eq_some hs
    have hproperty := apart_suffixed_iff hs hk hp hr.2 ha
    have hreadable := (readable_suffixed hs hr.1 hr.2).2
    have hseams : propertySeams .default ts = p.seams .default := by
      rw [propertySeams, hp]
    show apart [] (keyword :: (suffixAccessors .default edited).tokens) = true ↔ _
    -- The seams of the property come first, and those of the rest of the pass follow.
    rw [accessorSeams_of_some hk hs, hseams, List.forall_mem_append, apart_cons_iff,
      List.append_nil, (sameStart_suffixAccessors _ _).runsOn_eq, ← hproperty]
    constructor
    · rintro ⟨hrun, hpass⟩
      have hedited : apart [] (keyword :: edited) = true := by
        rw [hproperty]
        rcases hcase with ⟨hf, -, rfl⟩ | ⟨settable, hf, -, rfl⟩
        · rw [PropertyBody.seams, hf]
          exact List.forall_mem_nil _
        · -- The seams of the property would not be mended by the rest of the pass.
          have hwhole : apart [] p.whole = true := by
            rw [whole_of_propertyBody? hp]
            exact (apart_cons_iff.1 ha).2
          have hparts := (apart_whole_iff (opens_of_propertyBody? hp)
            (closes_of_propertyBody? hp) []).1 hwhole
          have hboth :=
            apart_seams_of_suffixAccessors hp hr.2 hparts.2.1 (keepsSeams hreadable) hpass
          rw [PropertyBody.seams, hf]
          exact List.forall_mem_cons.2 ⟨hboth.1, List.forall_mem_singleton.2 hboth.2⟩
      exact ⟨hedited, (ih hreadable (apart_cons_iff.1 hedited).2).1 hpass⟩
    · rintro ⟨hedited, hrest⟩
      rw [apart_cons_iff, List.append_nil] at hedited
      exact ⟨hedited.1, (ih hreadable hedited.2).2 hrest⟩
  | case3 t ts hk hs ih =>
    rw [readable_cons_iff] at hr
    rw [apart_cons_iff, List.append_nil] at ha
    rw [accessorSeams_of_none fun _ => hs, ← ih hr.2 ha.2]
    show apart [] (t :: (suffixAccessors .default ts).tokens) = true ↔ _
    rw [apart_cons_iff, List.append_nil, (sameStart_suffixAccessors _ _).runsOn_eq,
      and_iff_right ha.1]
  | case4 t ts hk ih =>
    rw [readable_cons_iff] at hr
    rw [apart_cons_iff, List.append_nil] at ha
    rw [accessorSeams_of_none fun h => absurd h hk, ← ih hr.2 ha.2]
    show apart [] (t :: (suffixAccessors .default ts).tokens) = true ↔ _
    rw [apart_cons_iff, List.append_nil, (sameStart_suffixAccessors _ _).runsOn_eq,
      and_iff_right ha.1]

end Kotlinize
