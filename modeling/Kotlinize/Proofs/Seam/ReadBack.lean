import Kotlinize.Proofs.ScopeBalance
import Kotlinize.Proofs.Seam.Declarations

namespace Kotlinize

/-!
# Reading the converted text

What a run prints is read back as the tokens of its buffer if and only if nothing has grown
together at a seam.

* `Stage.seams`, `runSeams` — the seams of a stage, and those of stages in order.
* `apart_applyAll_iff` — what stages leave is apart exactly as long as their seams are.
* `readsBack_applyAll_iff` — the converted text of a source is read back.
-/

variable {config : Config} {ts : List Token}

/-! ### The seams of stages -/

/-- The seams that a stage makes in a token list; those over functions make none. -/
def Stage.seams (config : Config) (ts : List Token) : Stage → List Seam
  | computedProperties => accessorSeams config ts
  | restrictedSetters => setterSeams config [] ts
  | lateInitProperties => markSeams ts
  | namedArguments | parameterLabels | returnArrows => []

/-- The seams of stages in order, each on what the one before it leaves. -/
def runSeams (config : Config) : List Stage → List Token → List Seam
  | [], _ => []
  | stage :: stages, ts =>
    stage.seams config ts ++ runSeams config stages (stage.apply config ts).tokens

/-- What a stage leaves is apart if and only if its seams are. -/
theorem Stage.apart_apply_iff (stage : Stage) (hr : Readable ts) (ha : apart [] ts = true) :
    apart [] (stage.apply .default ts).tokens = true
      ↔ ∀ s ∈ stage.seams .default ts, s.apart = true := by
  have hfunctions : stage ∈ StageGroup.functions.stages →
      apart [] (stage.apply .default ts).tokens = true := by
    intro hmem
    -- Readability and apartness are preserved together, as the edits need both.
    have hboth := (stage.rewrites_apply .default ts).preserves
      (P := fun us => Readable us ∧ apart [] us = true)
      (fun as bs h hP => ⟨h.readable hP.1, h.apart_of_functions hmem hP.1 hP.2⟩) ⟨hr, ha⟩
    exact hboth.2
  cases stage with
  | namedArguments => exact iff_of_true (hfunctions (by decide)) nofun
  | parameterLabels => exact iff_of_true (hfunctions (by decide)) nofun
  | returnArrows => exact iff_of_true (hfunctions (by decide)) nofun
  | computedProperties => exact apart_suffixAccessors_iff hr ha
  | restrictedSetters => exact apart_relocateSettersAfter_iff [] ts none (Or.inl rfl) hr ha
  | lateInitProperties => exact apart_markLateInit_tokens_iff hr ha

/-- **What stages leave one after another is apart** exactly as long as their seams are. -/
theorem apart_applyAll_iff (stages : List Stage) (hr : Readable ts) (ha : apart [] ts = true) :
    (∀ done, done <+: stages → apart [] (Stage.applyAll .default done ts) = true)
      ↔ ∀ s ∈ runSeams .default stages ts, s.apart = true := by
  induction stages generalizing ts with
  | nil =>
    refine iff_of_true (fun done hdone => ?_) nofun
    rw [List.prefix_nil.1 hdone]
    exact ha
  | cons stage stages ih =>
    have hreadable : Readable (stage.apply .default ts).tokens :=
      Stage.readable_applyAll [stage] hr
    rw [runSeams, List.forall_mem_append, ← stage.apart_apply_iff hr ha]
    constructor
    · intro h
      have hstage : apart [] (stage.apply .default ts).tokens = true :=
        h [stage] (List.prefix_append [stage] stages)
      refine ⟨hstage, (ih hreadable hstage).1 fun done hdone => ?_⟩
      exact h (stage :: done) (List.cons_prefix_cons.2 ⟨rfl, hdone⟩)
    · rintro ⟨hstage, hseams⟩ done hdone
      cases done with
      | nil => exact ha
      | cons first done =>
        obtain ⟨rfl, hrest⟩ := List.cons_prefix_cons.1 hdone
        exact (ih hreadable hstage).2 hseams done hrest

/-! ### Converted texts -/

/-- **The converted text is read back unless a seam has grown together.**  For a source text
    without byte order marks and line comments, and with the default settings, the text of the
    buffer is read back as the tokens of the buffer after each of the stages, exactly if at none
    of the seams of the run a token runs on into what now stands behind it.  The final buffer by
    itself is read back exactly if none of its tokens runs on, and then the converted text has the
    tokens of the buffer that carry syntax, in order. -/
theorem readsBack_applyAll_iff {source : String} (h : tokenize source = .ok ts)
    (hm : '\ufeff' ∉ source.toList) (hc : ∀ t ∈ ts, isLineComment t = false) :
    ((∀ done, done <+: Stage.all → ReadsBack (Stage.applyAll .default done ts))
        ↔ ∀ s ∈ runSeams .default Stage.all ts, s.apart = true)
      ∧ (ReadsBack (Stage.applyAll .default Stage.all ts)
        ↔ apart [] (Stage.applyAll .default Stage.all ts) = true)
      ∧ (ReadsBack (Stage.applyAll .default Stage.all ts) →
        ∃ text us, convert .default source = .ok text ∧ tokenize text = .ok us
          ∧ codeTexts us = codeTexts (Stage.applyAll .default Stage.all ts)) := by
  obtain ⟨hr, ha⟩ := readable_apart_of_tokenize h hm hc
  refine ⟨?_, readsBack_iff_apart (Stage.readable_applyAll Stage.all hr), ?_⟩
  · rw [← apart_applyAll_iff Stage.all hr ha]
    -- After each stage the tokens are readable, so they read back if they are apart.
    refine forall_congr' fun done => imp_congr_right fun _ => ?_
    exact readsBack_iff_apart (Stage.readable_applyAll done hr)
  · rintro ⟨us, hus, hgists⟩
    obtain ⟨report, hconvert⟩ := convertWithReport_of_tokenize .default h
    refine ⟨_, us, ?_, hus, codeTexts_of_gists hgists⟩
    unfold convert
    rw [hconvert]
    rfl

/-- In front of a getter the pass puts a space, so that nothing grows together there. -/
theorem readsBack_applyAll_getter_behind_brace :
    ∃ ts, tokenize "var a:I\x7bget\x7b\x7d\x7d" = .ok ts
      ∧ (∀ done, done <+: Stage.all → ReadsBack (Stage.applyAll .default done ts))
      ∧ ∃ text us, convert .default "var a:I\x7bget\x7b\x7d\x7d" = .ok text
        ∧ tokenize text = .ok us
        ∧ codeTexts us = codeTexts (Stage.applyAll .default Stage.all ts) := by
  have hrun : ((tokenize "var a:I\x7bget\x7b\x7d\x7d").toOption.any fun ts =>
      (ts.all fun t => !isLineComment t)
        && (runSeams .default Stage.all ts).all Seam.apart) = true := by
    cbv
  cases h : tokenize "var a:I\x7bget\x7b\x7d\x7d" with
  | error e =>
    rw [h] at hrun
    cases hrun
  | ok ts =>
    rw [h] at hrun
    obtain ⟨hcomments, hseams⟩ := (Bool.and_eq_true _ _).mp hrun
    have hboth := readsBack_applyAll_iff h (by decide) fun t ht => by
      simpa using List.all_eq_true.1 hcomments t ht
    have hback := hboth.1.2 (List.all_eq_true.1 hseams)
    exact ⟨ts, rfl, hback, hboth.2.2 (hback Stage.all (List.prefix_refl _))⟩

/-- The tokens of a property whose setter follows the opening brace. -/
def setterBehindBrace : List Token :=
  [⟨.keyword, "var", ⟨1, 1⟩⟩, ⟨.whitespace, " ", ⟨1, 4⟩⟩, ⟨.identifier, "a", ⟨1, 5⟩⟩,
    ⟨.symbol, ":", ⟨1, 6⟩⟩, ⟨.identifier, "I", ⟨1, 7⟩⟩, ⟨.startOfScope, "\x7b", ⟨1, 8⟩⟩,
    ⟨.identifier, "set", ⟨1, 9⟩⟩, ⟨.startOfScope, "\x7b", ⟨1, 12⟩⟩,
    ⟨.endOfScope, "\x7d", ⟨1, 13⟩⟩, ⟨.endOfScope, "\x7d", ⟨1, 14⟩⟩]

theorem tokenize_setterBehindBrace :
    tokenize "var a:I\x7bset\x7b\x7d\x7d" = .ok setterBehindBrace := by
  cbv

/-- In front of a setter it puts none: the type and the setter's word are read as one name. -/
theorem not_readsBack_setter_behind_brace :
    ¬ ∀ (source : String) (ts : List Token), tokenize source = .ok ts →
      '\ufeff' ∉ source.toList → (∀ t ∈ ts, isLineComment t = false) →
        ∃ text us, convert .default source = .ok text ∧ tokenize text = .ok us
          ∧ codeTexts us = codeTexts (Stage.applyAll .default Stage.all ts) := by
  intro hall
  have hcomments : (setterBehindBrace.all fun t => !isLineComment t) = true := by decide
  have hbuffer : codeTexts (Stage.applyAll .default Stage.all setterBehindBrace)
      = ["var", "a", ":", "I", "set", "(", "newValue", ")", "\x7b", "\x7d"] := by
    cbv
  have hprinted : render (Stage.applyAll .default Stage.all setterBehindBrace)
      = "var a:Iset(newValue)\x7b\x7d" := by
    cbv
  have hread : (tokenize "var a:Iset(newValue)\x7b\x7d").map codeTexts
      = .ok ["var", "a", ":", "Iset", "(", "newValue", ")", "\x7b", "\x7d"] := by
    cbv
  obtain ⟨text, us, htext, hus, hcode⟩ := hall _ _ tokenize_setterBehindBrace (by decide)
    fun t ht => by simpa using List.all_eq_true.1 hcomments t ht
  obtain ⟨report, hconvert⟩ := convertWithReport_of_tokenize .default tokenize_setterBehindBrace
  unfold convert at htext
  rw [hconvert, hprinted] at htext
  cases htext
  rw [hus] at hread
  have hfused := Except.ok.inj hread
  rw [hcode, hbuffer] at hfused
  exact absurd hfused (by decide)

end Kotlinize
