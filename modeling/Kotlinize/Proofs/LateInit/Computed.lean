import Kotlinize.Proofs.Count
import Kotlinize.Proofs.LateInit.Accessors
import Kotlinize.Proofs.LateInit.Keywords
import Kotlinize.Proofs.LateInit.Setters
import Kotlinize.Proofs.Seam.Accessors

namespace Kotlinize

/-!
# Computed properties with a marked type

The type of a computed property may hold a mark, and a property with a setter keeps its keyword.
When its braces are gone, the last pass finds the mark behind its type and takes the property for
a late-initialised one.  This file says for which of the properties that the pass over accessors
changes this happens.

* `computedProperties` — the properties that the pass over accessors changes.
* `exists_of_mem_computedProperties`, `not_mem_suffixAccessors` — what becomes of each of them.
* `Marked.whole_of_markedBehind` — the passes over accessors and setters make no mark.
* `prefixed_convertTokens_of_computed` — which of the properties a run prefixes.
-/

variable {config : Config} {v t : Token} {p : PropertyBody} {as bs ts us : List Token}

/-! ### The properties that the pass changes -/

/-- The properties that the pass over accessors changes, each with its keyword as it stands in the
    text, in the order in which the pass comes to them. -/
def computedProperties (config : Config) : List Token → List (Token × PropertyBody)
  | [] => []
  | t :: ts =>
    if _hv : isVariableKeyword t then
      match _h : suffixed? config t ts with
      | some (_, edited) =>
        ((propertyBody? ts).map fun p => (t, p)).toList ++ computedProperties config edited
      | none => computedProperties config ts
    else computedProperties config ts
termination_by ts => ts.length + 6 * variableCount ts
decreasing_by
  · have h₁ : variableCount edited ≤ variableCount ts := variableCount_suffixed?_le _h
    have h₂ : edited.length ≤ ts.length + 5 := length_suffixed?_le _h
    simp only [variableCount_cons, List.length_cons, _hv, if_true]
    omega
  · simp only [variableCount_cons, List.length_cons]
    omega
  · simp only [variableCount_cons, List.length_cons]
    omega

theorem computedProperties_of_some {keyword : Token} {edited : List Token}
    (hv : isVariableKeyword t = true) (h : suffixed? config t ts = some (keyword, edited)) :
    ∃ p, propertyBody? ts = some p ∧ p.suffixed config t = some (keyword, edited) ∧
      computedProperties config (t :: ts) = (t, p) :: computedProperties config edited := by
  have hedit := h
  unfold suffixed? at hedit
  split at hedit
  · cases hedit
  · rename_i p hp
    refine ⟨p, hp, hedit, ?_⟩
    rw [computedProperties, dif_pos hv]
    split
    · rename_i h'
      rw [h] at h'
      cases h'
      rw [hp]
      rfl
    · rename_i h'
      rw [h] at h'
      cases h'

theorem computedProperties_of_none
    (h : isVariableKeyword t = true → suffixed? config t ts = none) :
    computedProperties config (t :: ts) = computedProperties config ts := by
  rw [computedProperties]
  split
  · rename_i hv
    split
    · rename_i h'
      rw [h hv] at h'
      cases h'
    · rfl
  · rfl

/-- They are as many as the pass counts. -/
theorem length_computedProperties (config : Config) (ts : List Token) :
    (computedProperties config ts).length = (suffixAccessors config ts).count := by
  fun_induction suffixAccessors config ts with
  | case1 =>
    rw [computedProperties]
    rfl
  | case2 t ts hv keyword edited hs ih =>
    obtain ⟨p, -, -, heq⟩ := computedProperties_of_some hv hs
    rw [heq, List.length_cons, ih, Edited.count_counted, Edited.count_cons, Nat.add_comm]
  | case3 t ts hv hs ih =>
    rw [computedProperties_of_none fun _ => hs, ih, Edited.count_cons]
  | case4 t ts hv ih =>
    rw [computedProperties_of_none fun h => absurd h hv, ih, Edited.count_cons]

/-- A changed property stands in the text as it was read, and its keyword and what follows it are
    changed as the property says. -/
theorem exists_of_mem_computedProperties (h : (v, p) ∈ computedProperties config ts) :
    isVariableKeyword v = true ∧ ∃ us pre keyword edited, propertyBody? us = some p ∧
      p.suffixed config v = some (keyword, edited) ∧
      (suffixAccessors config ts).tokens
        = pre ++ keyword :: (suffixAccessors config edited).tokens := by
  fun_induction suffixAccessors config ts with
  | case1 => simp [computedProperties] at h
  | case2 t ts hv keyword edited hs ih =>
    obtain ⟨q, hq, hedit, heq⟩ := computedProperties_of_some hv hs
    rw [heq, List.mem_cons] at h
    rcases h with heq | h
    · obtain ⟨rfl, rfl⟩ := Prod.mk.inj heq
      exact ⟨hv, ts, [], keyword, edited, hq, hedit, rfl⟩
    · obtain ⟨hv', us, pre, keyword', edited', hp, hedit', htokens⟩ := ih h
      exact ⟨hv', us, keyword :: pre, keyword', edited', hp, hedit',
        congrArg (keyword :: ·) htokens⟩
  | case3 t ts hv hs ih =>
    rw [computedProperties_of_none fun _ => hs] at h
    obtain ⟨hv', us, pre, keyword', edited', hp, hedit', htokens⟩ := ih h
    exact ⟨hv', us, t :: pre, keyword', edited', hp, hedit', congrArg (t :: ·) htokens⟩
  | case4 t ts hv ih =>
    rw [computedProperties_of_none fun h => absurd h hv] at h
    obtain ⟨hv', us, pre, keyword', edited', hp, hedit', htokens⟩ := ih h
    exact ⟨hv', us, t :: pre, keyword', edited', hp, hedit', congrArg (t :: ·) htokens⟩

/-! ### Keywords that do not stay -/

theorem mem_of_mem_suffixed? {keyword keyword' : Token} {edited : List Token}
    (h : suffixed? config keyword ts = some (keyword', edited)) (hv : isVariableKeyword v = true)
    (hm : v ∈ edited) : v ∈ ts :=
  (List.mem_filter.1 ((unmade_isVariableKeyword.filter_suffixed_sublist h).subset
    (List.mem_filter.2 ⟨hm, hv⟩))).1

theorem mem_of_mem_computedProperties (h : (v, p) ∈ computedProperties config ts) : v ∈ ts := by
  fun_induction suffixAccessors config ts with
  | case1 => simp [computedProperties] at h
  | case2 t ts hv keyword edited hs ih =>
    obtain ⟨q, -, -, heq⟩ := computedProperties_of_some hv hs
    rw [heq, List.mem_cons] at h
    rcases h with heq | h
    · obtain ⟨rfl, -⟩ := Prod.mk.inj heq
      exact List.mem_cons_self
    · exact List.mem_cons_of_mem t
        (mem_of_mem_suffixed? hs (exists_of_mem_computedProperties h).1 (ih h))
  | case3 t ts hv hs ih =>
    rw [computedProperties_of_none fun _ => hs] at h
    exact List.mem_cons_of_mem t (ih h)
  | case4 t ts hv ih =>
    rw [computedProperties_of_none fun h => absurd h hv] at h
    exact List.mem_cons_of_mem t (ih h)

/-- A property without a setter is declared by another keyword. -/
theorem eq_constantKeyword_of_suffixed {keyword : Token} {edited : List Token}
    (h : p.suffixed config v = some (keyword, edited)) (hf : p.form ≠ .accessors true) :
    keyword = constantKeyword := by
  unfold PropertyBody.suffixed at h
  split at h
  · cases h
  · cases h
    rfl
  · rename_i settable hform
    cases settable with
    | false =>
      cases h
      rfl
    | true => exact absurd hform hf

/-- **The keyword of a property without a setter is gone** after the pass: nowhere in a text does
    a keyword stand twice. -/
theorem not_mem_suffixAccessors (h : (v, p) ∈ computedProperties config ts)
    (hn : (ts.filter Token.isSingle).Nodup) (hs : v.isSingle = true)
    (hf : p.form ≠ .accessors true) : v ∉ (suffixAccessors config ts).tokens := by
  have hv : isVariableKeyword v = true := (exists_of_mem_computedProperties h).1
  have hconstant : v ≠ constantKeyword := by
    rintro rfl
    exact absurd hv (by decide)
  have hcons : ∀ {t : Token} {ts : List Token}, ((t :: ts).filter Token.isSingle).Nodup →
      v ∈ ts → v ≠ t := by
    rintro t ts hn hm rfl
    rw [List.filter_cons_of_pos hs] at hn
    exact (List.nodup_cons.1 hn).1 (List.mem_filter.2 ⟨hm, hs⟩)
  fun_induction suffixAccessors config ts with
  | case1 => exact List.not_mem_nil
  | case2 t ts hk keyword edited hedit ih =>
    obtain ⟨q, -, hq, heq⟩ := computedProperties_of_some hk hedit
    have hnodup : (edited.filter Token.isSingle).Nodup :=
      hn.sublist ((unmade_isSingle.filter_suffixed_sublist hedit).trans
        ((List.sublist_cons_self t ts).filter _))
    rw [Edited.tokens_counted, Edited.tokens_cons, List.mem_cons, not_or]
    rw [heq, List.mem_cons] at h
    rcases h with heq | h
    · -- Here the keyword is replaced, and behind it the pass makes no other.
      obtain ⟨rfl, rfl⟩ := Prod.mk.inj heq
      rw [eq_constantKeyword_of_suffixed hq hf]
      refine ⟨hconstant, fun hm => ?_⟩
      have hplaced : v.isPlaced = true := (Bool.and_eq_true_iff.1 hs).1
      have hedited : v ∈ edited := mem_of_mem_applyAll [.computedProperties] hm hplaced
      exact hcons hn (mem_of_mem_suffixed? hedit hv hedited) rfl
    · refine ⟨?_, ih h hnodup⟩
      rcases keyword_of_suffixed? hedit with rfl | rfl
      · exact hcons hn (mem_of_mem_suffixed? hedit hv (mem_of_mem_computedProperties h))
      · exact hconstant
  | case3 t ts hk hedit ih =>
    rw [computedProperties_of_none fun _ => hedit] at h
    rw [Edited.tokens_cons, List.mem_cons, not_or]
    exact ⟨hcons hn (mem_of_mem_computedProperties h),
      ih h (hn.sublist ((List.sublist_cons_self t ts).filter _))⟩
  | case4 t ts hk ih =>
    rw [computedProperties_of_none fun h => absurd h hk] at h
    rw [Edited.tokens_cons, List.mem_cons, not_or]
    exact ⟨hcons hn (mem_of_mem_computedProperties h),
      ih h (hn.sublist ((List.sublist_cons_self t ts).filter _))⟩

/-! ### What stands behind the keyword -/

/-- In front of the braces of a property stands no parenthesis. -/
theorem not_opens_round_lead (h : propertyBody? us = some p) :
    ∀ t ∈ p.lead, Bracket.round.opens t = false := by
  obtain ⟨n, type, trivia, rest, hn, hlead, htype, htrivia, -⟩ := propertyBody?_eq_some h
  obtain ⟨before, name, between, colon, behind, hname, hbefore, hident, hbetween, hcolon,
    hbehind⟩ := typedName?_eq_some hn
  have hround : ∀ t, t.isTrivia = true → Bracket.round.opens t = false :=
    fun _ => opens_eq_false_of_isTrivia .round
  have hkind : ∀ t : Token, t.kind ≠ .startOfScope → Bracket.round.opens t = false := by
    intro t ht
    simp [Bracket.opens, Token.is, ht]
  rw [hlead, hname]
  simp only [List.forall_mem_append, List.forall_mem_cons]
  refine ⟨⟨fun t ht => hround t (hbefore t ht), ?_, fun t ht => hround t (hbetween t ht), ?_,
    fun t ht => hround t (hbehind t ht)⟩, fun t ht => ?_, fun t ht => hround t (htrivia t ht)⟩
  · rw [Token.isIdentifier, beq_iff_eq] at hident
    exact hkind name (by rw [hident]; decide)
  · exact hkind colon (by rw [(Token.is_iff.1 hcolon).1]; decide)
  · -- A parenthesis is none of the marks that a type may hold.
    rw [Bool.eq_false_iff]
    intro ho
    have hcontinues := htype t ht
    obtain ⟨hopen, htext⟩ := Token.is_iff.1 ho
    rw [continuesType, isTypeToken, htext] at hcontinues
    simp [Token.isIdentifier, Token.isWhitespace, hopen, Bracket.opener, computedTypeMarks]
      at hcontinues

/-- The braces of a property have no part in its mark. -/
theorem marked_whole_iff (h : propertyBody? us = some p) :
    Marked p.whole ↔ Marked (dropEndIf Token.isWhitespace p.lead) := by
  obtain ⟨hhead, hmark⟩ := isHeadToken_of_opens (by decide) (opens_of_propertyBody? h)
  have hlead : Marked p.whole ↔ Marked p.lead :=
    ⟨fun hm => hm.of_append_cons hhead hmark, fun hm => hm.append _⟩
  rw [hlead]
  rcases dropEndIf_eq Token.isWhitespace p.lead with heq | ⟨blank, hblank, heq⟩
  · rw [heq]
  · have hbang : ∀ t ∈ [blank], t.is .symbol "!" = false := by
      rw [Token.isWhitespace, beq_iff_eq] at hblank
      simp [Token.is, hblank]
    constructor
    · intro hm
      rw [heq] at hm
      exact hm.of_append hbang
    · intro hm
      rw [heq]
      exact hm.append [blank]

/-- The pass goes over what stands behind the keyword of a property once, and changes nothing up
    to the accessors. -/
theorem exists_suffixAccessors_withoutBraces (h : propertyBody? us = some p) :
    ∃ more, (suffixAccessors config (p.withoutBraces config)).tokens
      = dropEndIf Token.isWhitespace p.lead ++ more :=
  ⟨_, suffixAccessors_append config
    (fun t ht => isVariableKeyword_of_isInert (isInert_dropEndIf_lead h t ht)) _⟩

/-- No setter is moved up to the word of an accessor that no parenthesis stands in front of. -/
theorem AccessorHead.unrestricted {head : List Token} (h : AccessorHead head)
    (has : ∀ t ∈ as, Bracket.round.opens t = false) : Unrestricted (as ++ head) bs := by
  obtain @⟨before, trivia, w, opener, hbefore, hw, htrivia, ho⟩ := h
  have hround : ∀ t ∈ as ++ before, Bracket.round.opens t = false := by
    rw [List.forall_mem_append]
    refine ⟨has, fun t ht => ?_⟩
    simp [Bracket.opens, Token.is, (kind_of_precedesAccessor (hbefore t ht)).2.1]
  have hbehind : ∀ t ∈ trivia ++ [opener], t.isKeyword = false := by
    rw [List.forall_mem_append, List.forall_mem_singleton]
    exact ⟨fun t ht => isKeyword_eq_false_of_isTrivia (htrivia t ht),
      by simp [Token.isKeyword, (Token.is_iff.1 ho).1]⟩
  rw [← List.append_assoc]
  exact unrestricted_of_name hround (isIdentifier_of_isAccessorWord hw) hbehind

/-- **A mark behind the keyword of a property that starts with an accessor** was there before the
    passes over accessors and over setters. -/
theorem Marked.whole_of_markedBehind {settable : Bool} {pre : List Token}
    (hp : propertyBody? us = some p) (hf : p.form = .accessors settable)
    (hs : p.startsWithAccessor = true) (hv : isVariableKeyword v = true)
    (hts : ts = pre ++ v :: (suffixAccessors config (p.withoutBraces config)).tokens)
    (hfrom : MadeFromSource ts) (hfrom' : MadeFromSource (relocateSetters config ts).tokens)
    (h : MarkedBehind v (relocateSetters config ts).tokens) : Marked p.whole := by
  obtain ⟨head, rest, hhead, hwithout⟩ : ∃ head rest, AccessorHead head ∧
      p.withoutBraces config = dropEndIf Token.isWhitespace p.lead ++ (head ++ rest) :=
    exists_withoutBraces (closes_of_propertyBody? hp) hf hs
  generalize hlead : dropEndIf Token.isWhitespace p.lead = lead at hwithout
  have hround : ∀ t ∈ v :: lead, Bracket.round.opens t = false := by
    rw [List.forall_mem_cons, ← hlead]
    exact ⟨opens_of_isVariableKeyword hv _, fun t ht =>
      not_opens_round_lead hp t ((dropEndIf_sublist _ p.lead).subset ht)⟩
  -- The pass over accessors leaves the start of the accessor where it is.
  have htokens : ts = pre ++ v :: (lead ++ head ++ (suffixAccessors config rest).tokens) := by
    have hfront : ∀ t ∈ lead ++ head, isVariableKeyword t = false := by
      rw [List.forall_mem_append, ← hlead]
      exact ⟨fun t ht => isVariableKeyword_of_isInert (isInert_dropEndIf_lead hp t ht),
        hhead.isVariableKeyword⟩
    rw [hts, hwithout, ← List.append_assoc, suffixAccessors_append config hfront]
  -- The pass over setters may cut it off, but not so that another mark comes to stand there.
  have hunrestricted : Unrestricted (v :: (lead ++ head)) (suffixAccessors config rest).tokens :=
    hhead.unrestricted hround
  obtain ⟨before, behind, hrelocated, hcut⟩ : ∃ before behind,
      (relocateSetters config ts).tokens = before ++ v :: behind ∧
        KeptOrCut (lead ++ head) behind := by
    subst htokens
    exact exists_keptOrCut_of_relocateSetters none pre (isKeyword_of_isVariableKeyword hv)
      hunrestricted hfrom.isHeadToken
  obtain ⟨before', behind', heq, hmarked⟩ := h
  rw [hrelocated] at hfrom' heq
  rw [← hfrom'.eq_of_append_cons hv heq] at hmarked
  obtain ⟨more, stop, rfl, hmore, hmark, hstop⟩ := hhead.exists_stop
  rw [marked_whole_iff hp, hlead]
  exact hcut.marked hmarked hmore hmark hstop

/-! ### Runs -/

/-- A property that the last pass prefixes has a setter, and, if it starts with an accessor, a
    mark behind its type. -/
theorem form_of_prefixed (h : (v, p) ∈ computedProperties config ts) (hbefore : MadeFromSource ts)
    (hafter : MadeFromSource (suffixAccessors config ts).tokens)
    (hmoved : MadeFromSource (relocateSetters config (suffixAccessors config ts).tokens).tokens)
    (hv : Prefixed v
      (markLateInit (relocateSetters config (suffixAccessors config ts).tokens).tokens).tokens) :
    p.form = .accessors true ∧ (p.startsWithAccessor = true → Marked p.whole) := by
  obtain ⟨hkeyword, us, pre, keyword, edited, hp, hedit, htokens⟩ :=
    exists_of_mem_computedProperties h
  have hsingle := hbefore.isSingle (mem_of_mem_computedProperties h) hkeyword
  have hbehind := (prefixed_markLateInit_iff hkeyword hmoved.not_lateinit).1 hv
  have hform : p.form = .accessors true := by
    by_contra hother
    obtain ⟨before, behind, heq, -⟩ := hbehind
    have hmem : v ∈ (relocateSetters config (suffixAccessors config ts).tokens).tokens :=
      heq ▸ List.mem_append_right before List.mem_cons_self
    exact not_mem_suffixAccessors h hbefore.nodup hsingle hother
      (mem_of_mem_applyAll [.restrictedSetters] hmem (Bool.and_eq_true_iff.1 hsingle).1)
  rw [PropertyBody.suffixed, hform] at hedit
  cases hedit
  exact ⟨hform, fun hs =>
    .whole_of_markedBehind hp hform hs hkeyword htokens hafter hmoved hbehind⟩

/-- A property with a setter and with a mark behind its type is prefixed if no setter moves. -/
theorem prefixed_of_form (h : (v, p) ∈ computedProperties config ts)
    (hafter : MadeFromSource (suffixAccessors config ts).tokens)
    (hcount : (relocateSetters config (suffixAccessors config ts).tokens).count = 0)
    (hform : p.form = .accessors true) (hm : Marked p.whole) :
    Prefixed v
      (markLateInit (relocateSetters config (suffixAccessors config ts).tokens).tokens).tokens := by
  obtain ⟨hkeyword, us, pre, keyword, edited, hp, hedit, htokens⟩ :=
    exists_of_mem_computedProperties h
  have hsame : (relocateSetters config (suffixAccessors config ts).tokens).tokens
      = (suffixAccessors config ts).tokens :=
    (Stage.count_apply_eq_zero_iff config .restrictedSetters _).1 hcount
  rw [PropertyBody.suffixed, hform] at hedit
  cases hedit
  obtain ⟨more, hmore⟩ : ∃ more, (suffixAccessors config (p.withoutBraces config)).tokens
      = dropEndIf Token.isWhitespace p.lead ++ more := exists_suffixAccessors_withoutBraces hp
  rw [hsame, prefixed_markLateInit_iff hkeyword hafter.not_lateinit]
  exact ⟨pre, _, htokens, hmore ▸ ((marked_whole_iff hp).1 hm).append more⟩

/-- **Which computed properties a run declares late-initialised.**  On every source that can be
    cut into tokens and with every configuration the run ends well, and of the properties that the
    pass over accessors changes it prefixes only those with a setter; of those whose braces hold an
    accessor first, only those with a mark right behind the type.  And it does prefix each property
    with a setter and such a mark if it moves no setter. -/
theorem prefixed_convertTokens_of_computed (config : Config) {source : String} {ts : List Token}
    (h : tokenize source = .ok ts) :
    ∃ o, convertTokens config ts = .ok o ∧
      ∀ v p, (v, p) ∈ computedProperties config
          (Stage.applyAll config StageGroup.functions.stages ts) →
        (Prefixed v o.tokens →
          p.form = .accessors true ∧ (p.startsWithAccessor = true → Marked p.whole)) ∧
        ((relocateSetters config (suffixAccessors config
            (Stage.applyAll config StageGroup.functions.stages ts)).tokens).count = 0 →
          p.form = .accessors true → Marked p.whole → Prefixed v o.tokens) := by
  obtain ⟨report, hrun, -⟩ := convertTokens_eq_ok config ts
  have hfrom : ∀ stages : List Stage, .lateInitProperties ∉ stages →
      MadeFromSource (Stage.applyAll config stages ts) := fun _ => madeFromSource_applyAll h
  have hbefore := hfrom StageGroup.functions.stages (by decide)
  have hafter := hfrom (StageGroup.functions.stages ++ [.computedProperties]) (by decide)
  have hmoved := hfrom (StageGroup.functions.stages ++ [.computedProperties, .restrictedSetters])
    (by decide)
  exact ⟨_, hrun, fun v p hmem =>
    ⟨form_of_prefixed hmem hbefore hafter hmoved, prefixed_of_form hmem hafter⟩⟩

/-- A property with a getter, a setter and a mark, and what a run makes of it. -/
theorem convertTokens_getter_setter_mark :
    ∃ ts o v p, tokenize "var a:I!\x7bget\x7b\x7dset\x7b\x7d\x7d" = .ok ts ∧
      convertTokens .default ts = .ok o ∧
      (v, p) ∈ computedProperties .default
        (Stage.applyAll .default StageGroup.functions.stages ts) ∧
      p.form = .accessors true ∧ Marked p.whole ∧
      (relocateSetters .default (suffixAccessors .default
        (Stage.applyAll .default StageGroup.functions.stages ts)).tokens).count = 0 ∧
      o.tokens.take 3 = lateInitModifier ++ [v] := by
  have heval : (tokenize "var a:I!\x7bget\x7b\x7dset\x7b\x7d\x7d").toOption.map (fun ts =>
        ((computedProperties .default
            (Stage.applyAll .default StageGroup.functions.stages ts)).map fun d =>
          (d.1, d.2.form, (unmarked? d.2.whole).isSome),
        (relocateSetters .default (suffixAccessors .default
          (Stage.applyAll .default StageGroup.functions.stages ts)).tokens).count,
        (Stage.applyAll .default Stage.all ts).take 3))
      = some ([(⟨.keyword, "var", ⟨1, 1⟩⟩, .accessors true, true)], 0,
          lateInitModifier ++ [⟨.keyword, "var", ⟨1, 1⟩⟩]) := by
    cbv
  obtain ⟨ts, hts, hvalue⟩ := Option.map_eq_some_iff.1 heval
  obtain ⟨report, hrun, -⟩ := convertTokens_eq_ok .default ts
  simp only [Prod.mk.injEq] at hvalue
  obtain ⟨hcomputed, hcount, htake⟩ := hvalue
  obtain ⟨⟨v, p⟩, hd, heq⟩ := List.map_eq_singleton_iff.1 hcomputed
  obtain ⟨rfl, hform, hmarked⟩ : v = ⟨.keyword, "var", ⟨1, 1⟩⟩ ∧ p.form = .accessors true ∧
      (unmarked? p.whole).isSome = true := by
    simpa only [Prod.mk.injEq] using heq
  exact ⟨ts, _, _, p, eq_ok_of_toOption hts, hrun, hd ▸ List.mem_singleton_self _, hform,
    isSome_unmarked?_iff.1 hmarked, hcount, htake⟩

/-- A property that is prefixed because of its mark. -/
theorem prefixed_getter_setter_mark :
    ∃ ts o v p, tokenize "var a:I!\x7bget\x7b\x7dset\x7b\x7d\x7d" = .ok ts ∧
      convertTokens .default ts = .ok o ∧
      (v, p) ∈ computedProperties .default
        (Stage.applyAll .default StageGroup.functions.stages ts) ∧
      p.form = .accessors true ∧ Marked p.whole ∧ Prefixed v o.tokens := by
  obtain ⟨ts, o, v, p, hts, hrun, hmem, hform, hmarked, hcount, -⟩ :=
    convertTokens_getter_setter_mark
  obtain ⟨o', hrun', hall⟩ := prefixed_convertTokens_of_computed .default hts
  rw [hrun] at hrun'
  cases hrun'
  exact ⟨ts, o, v, p, hts, hrun, hmem, hform, hmarked, (hall v p hmem).2 hcount hform hmarked⟩

/-- So a property can become both computed and late-initialised. -/
theorem not_forall_computed_not_prefixed :
    ¬ ∀ (config : Config) (source : String) (ts : List Token) (o : Outcome),
      tokenize source = .ok ts → convertTokens config ts = .ok o →
        ∀ v p, (v, p) ∈ computedProperties config
          (Stage.applyAll config StageGroup.functions.stages ts) → ¬ Prefixed v o.tokens := by
  intro hnever
  obtain ⟨ts, o, v, p, hts, hrun, hmem, -, -, -, htake⟩ := convertTokens_getter_setter_mark
  have hprefixed : Prefixed v o.tokens := by
    rw [Prefixed, ← htake]
    exact (List.take_prefix 3 o.tokens).isInfix
  exact hnever .default _ ts o hts hrun v p hmem hprefixed

end Kotlinize
