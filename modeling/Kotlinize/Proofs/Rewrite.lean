import Kotlinize.Proofs.Construct

namespace Kotlinize

/-!
# Single rewrites

A stage walks over a text once and changes it at some places.  This file says once what a
change at one place can be, and that a stage is a run of such changes, as long as its count
says.  What every change preserves, a stage preserves then (`Rewrites.preserves`).

* `Rewrite config stage a b` — the change of one construct by a stage, with the text before
  and behind it.
* `Rewrites config stage n a b` — `n` such changes, one after another.
* `Stage.rewrites_apply` — a stage is a run of its changes.
* `Stage.applyAll` — some stages in order, each on what the one before it leaves.
-/

variable {config : Config} {stage : Stage}

/-! ### One rewrite -/

/-- The first token of the line that a text ends on, if anything stands on it. -/
def lineHead? (written : List Token) : Option Token := written.foldl nextLineHead none

/-- What a stage does to one construct; `pre` is the text before it, as far as the stage has
    already been over it. -/
inductive Rewrite (config : Config) : Stage → List Token → List Token → Prop where
  /-- A call-site colon becomes an equals sign. -/
  | nameArgument (pre : List Token) (colon : Token) (post : List Token)
      (hc : isColon colon = true)
      (hr : (ColonRole.ofPreceding config (some colon) pre.reverse).isCallSite = true) :
      Rewrite config .namedArguments (pre ++ colon :: post)
        (pre ++ (equalsSign pre.reverse post ++ post))
  /-- A parameter, which follows a parenthesis or a comma, loses its label. -/
  | dropLabel (pre : List Token) (separator : Token) (parameter bare post : List Token)
      (hs : Bracket.round.opens separator = true ∨ separator.is .symbol "," = true)
      (hp : unlabelled? parameter = some bare) :
      Rewrite config .parameterLabels (pre ++ separator :: (parameter ++ post))
        (pre ++ separator :: (bare ++ post))
  /-- The return arrow of a function becomes a colon. -/
  | returnArrow (pre : List Token) (keyword : Token) (ts : List Token) (s : Signature)
      (hk : isFunctionKeyword keyword = true) (hs : signature? config ts = some s) :
      Rewrite config .returnArrows (pre ++ keyword :: ts)
        (pre ++ keyword
          :: (dropSpacingEnd s.before ++ .symbol ":" :: (gapBefore s.result ++ s.result)))
  /-- The accessors of a property move behind its type. -/
  | suffixAccessors (pre : List Token) (keyword : Token) (ts : List Token) (keyword' : Token)
      (edited : List Token) (hk : isVariableKeyword keyword = true)
      (hs : suffixed? config keyword ts = some (keyword', edited)) :
      Rewrite config .computedProperties (pre ++ keyword :: ts) (pre ++ keyword' :: edited)
  /-- The modifier of a setter moves behind the line of its declaration. -/
  | relocateSetter (pre : List Token) (modifier : Token) (ts line after : List Token)
      (hm : modifier.isKeyword = true) (hr : restricted? ts = some (line ++ after))
      (hl : ∀ t ∈ line, t.isLinebreak = false) (ha : after.head?.all Token.isLinebreak = true) :
      Rewrite config .restrictedSetters (pre ++ modifier :: ts)
        (pre ++ (line ++ (setterLine config (lineHead? pre) modifier after ++ after)))
  /-- The mark behind a type becomes a modifier in front of the property. -/
  | markLateInit (pre : List Token) (keyword : Token) (ts us : List Token)
      (hk : isVariableKeyword keyword = true) (hu : unmarked? ts = some us) :
      Rewrite config .lateInitProperties (pre ++ keyword :: ts)
        (pre ++ (lateInitModifier ++ keyword :: us))

/-! ### Runs of rewrites -/

/-- A number of rewrites of one stage, one after another. -/
inductive Rewrites (config : Config) (stage : Stage) : Nat → List Token → List Token → Prop where
  | refl (ts : List Token) : Rewrites config stage 0 ts ts
  | step {n : Nat} {as bs cs : List Token} (h : Rewrite config stage as bs)
      (hs : Rewrites config stage n bs cs) : Rewrites config stage (n + 1) as cs

namespace Rewrites

variable {m n : Nat} {as bs cs : List Token}

theorem single (h : Rewrite config stage as bs) : Rewrites config stage 1 as bs :=
  .step h (.refl bs)

theorem trans (h₁ : Rewrites config stage m as bs) (h₂ : Rewrites config stage n bs cs) :
    Rewrites config stage (m + n) as cs := by
  induction h₁ with
  | refl => rwa [Nat.zero_add]
  | step h _ ih =>
    rw [Nat.add_right_comm]
    exact .step h (ih h₂)

/-- What every rewrite preserves, a run preserves. -/
theorem preserves {P : List Token → Prop}
    (hstep : ∀ as bs, Rewrite config stage as bs → P as → P bs)
    (h : Rewrites config stage n as bs) (ha : P as) : P bs := by
  induction h with
  | refl => exact ha
  | step h _ ih => exact ih (hstep _ _ h ha)

end Rewrites

/-! ### Each stage is a run of its rewrites

Each lemma follows the recursion of its pass; `pre` is the text already passed over.
-/

section

variable (config)

theorem rewrites_nameArgumentsAfter (written ts : List Token) :
    Rewrites config .namedArguments (nameArgumentsAfter config written ts).count
      (written.reverse ++ ts)
      (written.reverse ++ (nameArgumentsAfter config written ts).tokens) := by
  fun_induction nameArgumentsAfter config written ts with
  | case1 => exact .refl _
  | case2 written t ts hc sign ih =>
    rw [Bool.and_eq_true] at hc
    -- The pass keeps what it has written in reverse, the rewrite has it in order.
    have h₁ : Rewrite config .namedArguments (written.reverse ++ t :: ts)
        (written.reverse ++ (sign ++ ts)) := by
      have hw := List.reverse_reverse written
      have h : Rewrite config .namedArguments (written.reverse ++ t :: ts)
          (written.reverse ++ (equalsSign written.reverse.reverse ts ++ ts)) :=
        .nameArgument written.reverse t ts hc.1 (hw.symm ▸ hc.2)
      rwa [hw] at h
    rw [List.reverse_append, List.reverse_reverse, List.append_assoc, List.append_assoc] at ih
    exact (Rewrites.single h₁).trans ih
  | case3 written t ts _ ih =>
    rwa [List.reverse_cons, List.append_assoc, List.append_assoc] at ih

/-- A parameter behind a parenthesis or a comma. -/
theorem rewrites_unlabelled (pre : List Token) {separator : Token}
    (parameter post : List Token)
    (hs : Bracket.round.opens separator = true ∨ separator.is .symbol "," = true) :
    Rewrites config .parameterLabels (unlabelled parameter).count
      (pre ++ separator :: (parameter ++ post))
      (pre ++ separator :: ((unlabelled parameter).tokens ++ post)) := by
  unfold unlabelled
  split
  · rename_i bare hp
    exact .single (.dropLabel pre separator parameter bare post hs hp)
  · exact .refl _

/-- The commas between the parameters of a list are commas. -/
theorem isComma_of_mem_later {depth : Nat} {ts : List Token} {p : Token × List Token}
    (h : p ∈ (splitParameters depth ts).later) : p.1.is .symbol "," = true := by
  fun_induction splitParameters depth ts with
  | case1 => cases h
  | case2 depth t ts hc ps ih =>
    rcases List.mem_cons.1 h with rfl | h'
    · rw [Bool.and_eq_true] at hc
      exact hc.2
    · exact ih h'
  | case3 _ _ _ _ ih => exact ih h

theorem rewrites_unlabelledLater (pre : List Token) (later : List (Token × List Token))
    (post : List Token) (hl : ∀ p ∈ later, p.1.is .symbol "," = true) :
    Rewrites config .parameterLabels (unlabelledLater later).count
      (pre ++ (later.flatMap (fun p => p.1 :: p.2) ++ post))
      (pre ++ ((unlabelledLater later).tokens ++ post)) := by
  induction later generalizing pre with
  | nil => exact .refl _
  | cons p later ih =>
    have h₁ := rewrites_unlabelled config pre p.2
      (later.flatMap (fun p => p.1 :: p.2) ++ post) (Or.inr (hl p List.mem_cons_self))
    have h₂ := ih (pre ++ p.1 :: (unlabelled p.2).tokens)
      fun q hq => hl q (List.mem_cons_of_mem _ hq)
    simp only [List.append_assoc, List.cons_append] at h₁ h₂
    simpa [unlabelledLater] using h₁.trans h₂

/-- The parameter list behind a function keyword loses its labels one by one. -/
theorem rewrites_unlabelledList (pre ts : List Token) :
    Rewrites config .parameterLabels (unlabelledList ts).count (pre ++ ts)
      (pre ++ (unlabelledList ts).tokens) := by
  unfold unlabelledList
  split
  · exact .refl _
  · rename_i p hp
    have hw := whole_of_parameterList? hp
    have ho := opens_of_parameterList? hp
    generalize hps : splitParameters 0 p.enclosed.inside = ps
    have hps' : ps.first ++ ps.later.flatMap (fun q => q.1 :: q.2) = p.enclosed.inside := by
      rw [← whole_splitParameters 0 p.enclosed.inside, hps]
      rfl
    -- The first parameter follows the parenthesis, each of the others a comma.
    have h₁ := rewrites_unlabelled config (pre ++ p.name) ps.first
      (ps.later.flatMap (fun q => q.1 :: q.2) ++ p.enclosed.close :: p.enclosed.tail)
      (Or.inl ho)
    have h₂ := rewrites_unlabelledLater config
      (pre ++ p.name ++ p.opener :: (unlabelled ps.first).tokens) ps.later
      (p.enclosed.close :: p.enclosed.tail)
      fun q hq => isComma_of_mem_later (hps ▸ hq)
    rw [← List.append_assoc ps.first, hps'] at h₁
    simp only [List.append_assoc, List.cons_append] at h₁ h₂
    have h := h₁.trans h₂
    rw [← hw]
    simpa [ParameterList.whole, Enclosed.whole, Parameters.unlabelled, hps] using h

theorem rewrites_dropLabels (pre ts : List Token) :
    Rewrites config .parameterLabels (dropLabels ts).count (pre ++ ts)
      (pre ++ (dropLabels ts).tokens) := by
  fun_induction dropLabels ts generalizing pre with
  | case1 => exact .refl _
  | case2 t ts _ e ih =>
    have h₁ := rewrites_unlabelledList config (pre ++ [t]) ts
    have h₂ := ih (pre ++ [t])
    simp only [List.append_assoc, List.singleton_append] at h₁ h₂
    exact h₁.trans h₂
  | case3 t ts _ ih =>
    have h := ih (pre ++ [t])
    simpa using h

theorem rewrites_arrowsToColons (pre ts : List Token) :
    Rewrites config .returnArrows (arrowsToColons config ts).count (pre ++ ts)
      (pre ++ (arrowsToColons config ts).tokens) := by
  fun_induction arrowsToColons config ts generalizing pre with
  | case1 => exact .refl _
  | case2 t ts hk s hs ih =>
    have h₁ : Rewrite config .returnArrows _ _ := .returnArrow pre t ts s hk hs
    have h₂ := ih (pre ++ t :: (dropSpacingEnd s.before ++ .symbol ":" :: gapBefore s.result))
    simp only [List.append_assoc, List.cons_append] at h₂
    simpa using (Rewrites.single h₁).trans h₂
  | case3 t ts _ _ ih | case4 t ts _ ih =>
    have h := ih (pre ++ [t])
    simpa using h

theorem rewrites_suffixAccessors (pre ts : List Token) :
    Rewrites config .computedProperties (suffixAccessors config ts).count (pre ++ ts)
      (pre ++ (suffixAccessors config ts).tokens) := by
  fun_induction suffixAccessors config ts generalizing pre with
  | case1 => exact .refl _
  | case2 t ts hk keyword' edited hs ih =>
    have h₁ : Rewrite config .computedProperties _ _ :=
      .suffixAccessors pre t ts keyword' edited hk hs
    have h₂ := ih (pre ++ [keyword'])
    simp only [List.append_assoc, List.singleton_append] at h₂
    simpa using (Rewrites.single h₁).trans h₂
  | case3 t ts _ _ ih | case4 t ts _ ih =>
    have h := ih (pre ++ [t])
    simpa using h

theorem lineHead?_append_singleton (pre : List Token) (t : Token) :
    lineHead? (pre ++ [t]) = nextLineHead (lineHead? pre) t := by
  rw [lineHead?, List.foldl_append]
  rfl

/-- What the pass for setters knows of the current line: its head, or that it ends here. -/
def KnowsLine (pre : List Token) (head? : Option Token) (ts : List Token) : Prop :=
  head? = lineHead? pre ∨ ts.head?.all Token.isLinebreak = true

/-- A keyword is no line end, so in front of it the line's head is known. -/
theorem KnowsLine.eq_of_isKeyword {pre ts : List Token} {head? : Option Token} {t : Token}
    (h : KnowsLine pre head? (t :: ts)) (hk : t.isKeyword = true) : head? = lineHead? pre := by
  rcases h with h | h
  · exact h
  · have ht : t.isLinebreak = true := h
    rw [Token.isLinebreak, beq_iff_eq] at ht
    rw [Token.isKeyword, ht] at hk
    cases hk

theorem KnowsLine.next {pre ts : List Token} {head? : Option Token} {t : Token}
    (h : KnowsLine pre head? (t :: ts)) : KnowsLine (pre ++ [t]) (nextLineHead head? t) ts := by
  left
  rw [lineHead?_append_singleton]
  rcases h with h | h
  · rw [h]
  · -- Behind a line end nothing stands on the line yet, whatever was known before.
    have ht : t.isLinebreak = true := h
    simp [nextLineHead, ht]

/-- The rest of a text behind the tokens of a line starts with the line's end. -/
theorem head?_dropWhile_isLinebreak (ts : List Token) :
    (ts.dropWhile fun u => !u.isLinebreak).head?.all Token.isLinebreak = true := by
  have h := List.head?_dropWhile_not (fun u : Token => !u.isLinebreak) ts
  cases ha : (ts.dropWhile fun u => !u.isLinebreak).head? with
  | none => rfl
  | some u =>
    rw [ha] at h
    simpa using h

/-- Behind a moved modifier the pass knows nothing of the current line, but it also stands at
    the line's end. -/
theorem rewrites_relocateSettersAfter (pre : List Token) (head? : Option Token)
    (ts : List Token) (hh : KnowsLine pre head? ts) :
    Rewrites config .restrictedSetters (relocateSettersAfter config head? ts).count (pre ++ ts)
      (pre ++ (relocateSettersAfter config head? ts).tokens) := by
  fun_induction relocateSettersAfter config head? ts generalizing pre with
  | case1 => exact .refl _
  | case2 head? t ts declaration hr line after ih =>
    have hm : t.isKeyword = true ∧ restricted? ts = some declaration :=
      Option.ite_none_right_eq_some.1 hr
    have hhead : head? = lineHead? pre := hh.eq_of_isKeyword hm.1
    have hsplit : line ++ after = declaration := List.takeWhile_append_dropWhile
    have hend : after.head?.all Token.isLinebreak = true := head?_dropWhile_isLinebreak declaration
    have h₁ : Rewrite config .restrictedSetters _ _ :=
      .relocateSetter pre t ts line after hm.1 (by rw [hsplit]; exact hm.2)
        (fun u hu => by simpa using of_mem_takeWhile hu) hend
    -- The pass forgets the line here, but the next token is a line end or there is none.
    have h₂ := ih (pre ++ (line ++ setterLine config head? t after)) (Or.inr hend)
    rw [← hhead] at h₁
    simp only [List.append_assoc] at h₁ h₂
    simpa using (Rewrites.single h₁).trans h₂
  | case3 head? t ts _ ih =>
    have h := ih (pre ++ [t]) hh.next
    simpa using h

theorem rewrites_markLateInit (pre ts : List Token) :
    Rewrites config .lateInitProperties (markLateInit ts).count (pre ++ ts)
      (pre ++ (markLateInit ts).tokens) := by
  fun_induction markLateInit ts generalizing pre with
  | case1 => exact .refl _
  | case2 t ts us hu ih =>
    have hk : isVariableKeyword t = true ∧ unmarked? ts = some us :=
      Option.ite_none_right_eq_some.1 hu
    have h₁ : Rewrite config .lateInitProperties _ _ := .markLateInit pre t ts us hk.1 hk.2
    have h₂ := ih (pre ++ (lateInitModifier ++ [t]))
    simp only [List.append_assoc, List.singleton_append] at h₂
    simpa using (Rewrites.single h₁).trans h₂
  | case3 t ts _ ih =>
    have h := ih (pre ++ [t])
    simpa using h

/-- **A stage is a run of rewrites**, as many as it counts. -/
theorem Stage.rewrites_apply (stage : Stage) (ts : List Token) :
    Rewrites config stage (stage.apply config ts).count ts (stage.apply config ts).tokens := by
  cases stage with
  | namedArguments => exact rewrites_nameArgumentsAfter config [] ts
  | parameterLabels => exact rewrites_dropLabels config [] ts
  | returnArrows => exact rewrites_arrowsToColons config [] ts
  | computedProperties => exact rewrites_suffixAccessors config [] ts
  | restrictedSetters => exact rewrites_relocateSettersAfter config [] none ts (Or.inl rfl)
  | lateInitProperties => exact rewrites_markLateInit config [] ts

end

/-! ### Stages in order -/

/-- The tokens after some stages in order, each on what the one before it leaves. -/
def Stage.applyAll (config : Config) (stages : List Stage) (ts : List Token) : List Token :=
  stages.foldl (fun us stage => (stage.apply config us).tokens) ts

@[simp] theorem Stage.applyAll_nil (ts : List Token) : Stage.applyAll config [] ts = ts := rfl

@[simp] theorem Stage.applyAll_cons (stage : Stage) (stages : List Stage) (ts : List Token) :
    Stage.applyAll config (stage :: stages) ts
      = Stage.applyAll config stages (stage.apply config ts).tokens := rfl

theorem Stage.applyAll_append (done stages : List Stage) (ts : List Token) :
    Stage.applyAll config (done ++ stages) ts
      = Stage.applyAll config stages (Stage.applyAll config done ts) :=
  List.foldl_append

/-- What every rewrite of every stage preserves, stages in order preserve. -/
theorem Stage.applyAll_preserves {P : List Token → Prop} (stages : List Stage)
    (hstep : ∀ stage ∈ stages, ∀ as bs, Rewrite config stage as bs → P as → P bs)
    (ts : List Token) (h : P ts) : P (Stage.applyAll config stages ts) := by
  induction stages generalizing ts with
  | nil => exact h
  | cons stage stages ih =>
    rw [Stage.applyAll_cons]
    have h' : P (stage.apply config ts).tokens :=
      (stage.rewrites_apply config ts).preserves (hstep stage List.mem_cons_self) h
    exact ih (fun s hs => hstep s (List.mem_cons_of_mem _ hs)) _ h'

end Kotlinize
