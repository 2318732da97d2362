import Kotlinize.Convert
import Kotlinize.Proofs.Rewrite

namespace Kotlinize

/-!
# No stage loses a scope

A run checks after every stage that the stage has kept the scope balance.  The check never
fails, whatever the tokens are: brackets that do not match, and tokens that no source text
yields, included.

* `Rewrite.scopeBalance_eq` — a single rewrite keeps the balance.  It touches brackets in two
  ways only: it adds an empty or a full pair of parentheses, or takes an opener and a closer.
* `Stage.scopeBalance_apply`, `runStage_eq_ok` — hence a stage keeps it, and the check passes.
* `convert_fails_only_in_lexing` — hence a text fails to convert only if it has no tokens.
-/

variable {config : Config} {stage : Stage}

/-! ### Tokens that are no brackets -/

theorem scopeStep_eq_zero {t : Token} (ho : t.kind ≠ .startOfScope) (hc : t.kind ≠ .endOfScope) :
    t.scopeStep = 0 := by
  unfold Token.scopeStep
  split
  · exact absurd (by assumption) ho
  · exact absurd (by assumption) hc
  · rfl

theorem scopeStep_of_isTrivia {t : Token} (h : t.isTrivia = true) : t.scopeStep = 0 := by
  unfold Token.isTrivia Token.isSpacing at h
  apply scopeStep_eq_zero <;> intro hk <;> rw [hk] at h <;> cases h

theorem scopeStep_of_is {t : Token} {kind : TokenKind} {text : String}
    (h : t.is kind text = true) (ho : kind ≠ .startOfScope) (hc : kind ≠ .endOfScope) :
    t.scopeStep = 0 := by
  rw [Token.is_iff] at h
  apply scopeStep_eq_zero <;> rw [h.1]
  · exact ho
  · exact hc

theorem scopeStep_of_isKeyword {t : Token} (h : t.isKeyword = true) : t.scopeStep = 0 := by
  unfold Token.isKeyword at h
  apply scopeStep_eq_zero <;> intro hk <;> rw [hk] at h <;> cases h

theorem scopeStep_of_isLabel {t : Token} (h : isLabel t = true) : t.scopeStep = 0 := by
  unfold isLabel Token.isIdentifier Token.isKeyword at h
  apply scopeStep_eq_zero <;> intro hk <;> rw [hk] at h <;> cases h

theorem scopeStep_of_opens {b : Bracket} {t : Token} (h : b.opens t = true) :
    t.scopeStep = 1 := by
  rw [Bracket.opens, Token.is_iff] at h
  unfold Token.scopeStep
  rw [h.1]

theorem scopeStep_of_closes {b : Bracket} {t : Token} (h : b.closes t = true) :
    t.scopeStep = -1 := by
  rw [Bracket.closes, Token.is_iff] at h
  unfold Token.scopeStep
  rw [h.1]

/-- A run of tokens without brackets adds nothing. -/
theorem scopeBalance_eq_zero {ts : List Token} (h : ∀ t ∈ ts, t.scopeStep = 0) :
    scopeBalance ts = 0 := by
  induction ts with
  | nil => rfl
  | cons t ts ih =>
    rw [scopeBalance_cons, h t List.mem_cons_self, ih fun u hu => h u (List.mem_cons_of_mem _ hu)]
    rfl

theorem scopeBalance_of_isTrivia {ts : List Token} (h : ∀ t ∈ ts, t.isTrivia = true) :
    scopeBalance ts = 0 :=
  scopeBalance_eq_zero fun t ht => scopeStep_of_isTrivia (h t ht)

theorem scopeBalance_of_isSpacing {ts : List Token} (h : ∀ t ∈ ts, t.isSpacing = true) :
    scopeBalance ts = 0 :=
  scopeBalance_of_isTrivia fun t ht => Token.isTrivia_of_isSpacing (h t ht)

/-! ### The parts of an edit -/

@[simp] theorem scopeBalance_gapBefore (ts : List Token) : scopeBalance (gapBefore ts) = 0 := by
  rcases gapBefore_eq ts with h | h <;> rw [h] <;> rfl

@[simp] theorem scopeBalance_gapAfter (ts : List Token) : scopeBalance (gapAfter ts) = 0 := by
  rcases gapAfter_eq ts with h | h <;> rw [h] <;> rfl

@[simp] theorem scopeBalance_equalsSign (written ts : List Token) :
    scopeBalance (equalsSign written ts) = 0 := by
  unfold equalsSign
  split <;> simp [Token.space, Token.whitespace, Token.symbol, Token.scopeStep]

@[simp] theorem scopeBalance_dropSpacingEnd (ts : List Token) :
    scopeBalance (dropSpacingEnd ts) = scopeBalance ts := by
  obtain ⟨spacing, hs, ht⟩ := exists_eq_dropSpacingEnd_append ts
  have h := congrArg scopeBalance ht
  rw [scopeBalance_append, scopeBalance_of_isSpacing hs] at h
  omega

theorem scopeBalance_dropEndIf {p : Token → Bool} (hp : ∀ t, p t = true → t.isTrivia = true)
    (ts : List Token) : scopeBalance (dropEndIf p ts) = scopeBalance ts := by
  rcases dropEndIf_eq p ts with h | ⟨t, ht, h⟩
  · rw [h]
  · have hb := congrArg scopeBalance h
    rw [scopeBalance_append, scopeBalance_cons, scopeStep_of_isTrivia (hp t ht)] at hb
    simpa using hb.symm

theorem scopeBalance_parentheses {parameter : List Token} (h : scopeBalance parameter = 0) :
    scopeBalance (parentheses parameter) = 0 := by
  simp [parentheses, h, Bracket.openToken, Bracket.closeToken, Token.scopeStep]

theorem scopeBalance_openGetter (body : List Token) :
    scopeBalance (openGetter body) = scopeBalance body := by
  unfold openGetter
  split
  · rfl
  · rename_i a ha
    have hpar : scopeBalance (parentheses []) = 0 := rfl
    rw [← (of_accessorAt? ha).1]
    simp [Accessor.whole, hpar]

theorem scopeBalance_openSetter (body : List Token) :
    scopeBalance (openSetter config body) = scopeBalance body := by
  unfold openSetter
  split
  · rfl
  · rename_i a ha
    split
    · rw [← (of_accessorAt? ha).1]
      simp [Accessor.whole, scopeBalance_parentheses, Token.identifier, Token.scopeStep]
    · rfl

theorem scopeBalance_unclosed (inside tail : List Token) :
    scopeBalance (unclosed inside tail) = scopeBalance inside := by
  unfold unclosed
  dsimp only
  split
  · rw [scopeBalance_dropEndIf isTrivia_of_isLinebreak,
      scopeBalance_dropEndIf isTrivia_of_isWhitespace]
  · exact scopeBalance_dropEndIf isTrivia_of_isWhitespace _

/-! ### One rewrite -/

theorem scopeBalance_of_unlabelled? {parameter bare : List Token}
    (h : unlabelled? parameter = some bare) : scopeBalance bare = scopeBalance parameter := by
  obtain ⟨trivia, label, spacing, rest, rfl, rfl, -, hl, hs, -⟩ := unlabelled?_eq_some h
  simp [scopeStep_of_isLabel hl, scopeBalance_of_isSpacing hs]

theorem scopeBalance_of_signature? {ts : List Token} {s : Signature}
    (h : signature? config ts = some s) :
    scopeBalance s.before + scopeBalance s.result = scopeBalance ts := by
  have ha : s.arrow.scopeStep = 0 :=
    scopeStep_of_is (isArrow_of_signature? h) (by decide) (by decide)
  rw [← whole_of_signature? h]
  simp [Signature.whole, ha]

/-- The accessors leave one opener and one closer behind. -/
theorem scopeBalance_of_suffixed? {keyword keyword' : Token} {ts edited : List Token}
    (h : suffixed? config keyword ts = some (keyword', edited)) :
    scopeBalance edited = scopeBalance ts := by
  obtain ⟨p, hp, hform⟩ := suffixed?_eq_some h
  -- The braces cancel out, so they count neither where they stay nor where they go.
  have ho := scopeStep_of_opens (opens_of_propertyBody? hp)
  have hc := scopeStep_of_closes (closes_of_propertyBody? hp)
  have hw : scopeBalance ts = scopeBalance p.lead + (scopeBalance p.enclosed.inside
      + scopeBalance p.enclosed.tail) := by
    rw [← whole_of_propertyBody? hp]
    simp only [PropertyBody.whole, Enclosed.whole, scopeBalance_append, scopeBalance_cons, ho, hc]
    omega
  rw [hw]
  rcases hform with ⟨-, -, rfl⟩ | ⟨_, -, -, rfl⟩
  · have hpar : scopeBalance (parentheses []) = 0 := rfl
    simp only [PropertyBody.withGetter, Enclosed.whole, scopeBalance_append, scopeBalance_cons,
      scopeBalance_gapAfter, hpar, ho, hc]
    show _ + 0 + (0 + (0 + (0 + (1 + _)))) = _
    omega
  · simp only [PropertyBody.withoutBraces, scopeBalance_append, scopeBalance_openGetter,
      scopeBalance_openSetter, scopeBalance_unclosed,
      scopeBalance_dropEndIf isTrivia_of_isWhitespace]

theorem scopeBalance_of_restricted? {ts declaration : List Token}
    (h : restricted? ts = some declaration) : scopeBalance declaration = scopeBalance ts := by
  obtain ⟨before, opener, word, closer, behind, rfl, hb, ho, hw, hc, hs, -⟩ :=
    restricted?_eq_some h
  have hword := scopeStep_of_is hw (by decide) (by decide)
  -- The parentheses around the word of the setter cancel out.
  simp only [scopeBalance_append, scopeBalance_cons, scopeBalance_of_isSpacing hb,
    scopeBalance_of_isSpacing hs, scopeStep_of_opens ho, scopeStep_of_closes hc, hword]
  omega

/-- The line of a moved modifier holds no bracket. -/
theorem scopeBalance_setterLine (head? : Option Token) {modifier : Token} {after : List Token}
    (hm : modifier.isKeyword = true) (ha : after.head?.all Token.isLinebreak = true) :
    scopeBalance (setterLine config head? modifier after) = 0 := by
  have hl : (after.head?.getD .newline).scopeStep = 0 :=
    scopeStep_of_isTrivia (isTrivia_of_isLinebreak _ (isLinebreak_lineEnd ha))
  apply scopeBalance_eq_zero
  intro t ht
  simp only [setterLine, List.mem_cons, List.not_mem_nil, or_false] at ht
  rcases ht with rfl | rfl | rfl | rfl | rfl
  · exact hl
  · rfl
  · exact scopeStep_of_isKeyword hm
  · rfl
  · rfl

theorem scopeBalance_of_unmarked? {ts us : List Token} (h : unmarked? ts = some us) :
    scopeBalance us = scopeBalance ts := by
  obtain ⟨n, type, mark, rest, -, rfl, rfl, -, -, hm⟩ := unmarked?_eq_some h
  simp [scopeStep_of_is hm (by decide) (by decide)]

/-- **A rewrite keeps the scope balance.** -/
theorem Rewrite.scopeBalance_eq {as bs : List Token} (h : Rewrite config stage as bs) :
    scopeBalance bs = scopeBalance as := by
  cases h with
  | nameArgument pre colon post hc =>
    have hz := scopeStep_of_is hc (by decide) (by decide)
    simp [hz]
  | dropLabel pre separator parameter bare post _ hp =>
    simp [scopeBalance_of_unlabelled? hp]
  | returnArrow pre keyword ts s hk hs =>
    have hz : (Token.symbol ":").scopeStep = 0 := rfl
    simp [hz, scopeBalance_of_signature? hs]
  | suffixAccessors pre keyword ts keyword' edited hk hs =>
    have hz := scopeStep_of_is hk (by decide) (by decide)
    have hz' : keyword'.scopeStep = 0 := by
      obtain ⟨p, -, ⟨-, rfl, -⟩ | ⟨settable, -, rfl, -⟩⟩ := suffixed?_eq_some hs
      · rfl
      · cases settable
        · rfl
        · exact hz
    simp [hz, hz', scopeBalance_of_suffixed? hs]
  | relocateSetter pre modifier ts line after hm hr _ ha =>
    have hd := scopeBalance_of_restricted? hr
    rw [scopeBalance_append] at hd
    simp [scopeStep_of_isKeyword hm, scopeBalance_setterLine _ hm ha, hd]
  | markLateInit pre keyword ts us hk hu =>
    have hz : scopeBalance lateInitModifier = 0 := rfl
    simp [hz, scopeBalance_of_unmarked? hu]

/-! ### Whole runs -/

/-- A stage keeps the scope balance, on every list of tokens. -/
theorem Stage.scopeBalance_apply (config : Config) (stage : Stage) (ts : List Token) :
    scopeBalance (stage.apply config ts).tokens = scopeBalance ts := by
  -- A stage is a run of rewrites, so the balance is an invariant of the run.
  have hrun := stage.rewrites_apply config ts
  refine hrun.preserves (P := fun us => scopeBalance us = scopeBalance ts) ?_ rfl
  intro as bs h ha
  rw [h.scopeBalance_eq, ha]

/-- The check behind a stage always passes. -/
theorem runStage_eq_ok (config : Config) (stage : Stage) (ts : List Token) :
    runStage config stage ts = .ok (stage.apply config ts) := by
  unfold runStage
  exact if_pos (stage.scopeBalance_apply config ts).symm

theorem runStages_eq_ok (config : Config) (stages : List Stage) (ts : List Token) :
    ∃ report, runStages config stages ts = .ok ⟨Stage.applyAll config stages ts, report⟩ := by
  induction stages generalizing ts with
  | nil => exact ⟨⟨[]⟩, rfl⟩
  | cons stage stages ih =>
    obtain ⟨report, h⟩ := ih (stage.apply config ts).tokens
    refine ⟨⟨⟨stage, (stage.apply config ts).count⟩ :: report.entries⟩, ?_⟩
    rw [runStages, runStage_eq_ok]
    dsimp only
    rw [h]
    rfl

theorem convertTokens_eq_ok (config : Config) (ts : List Token) :
    ∃ report, convertTokens config ts = .ok ⟨Stage.applyAll config Stage.all ts, report⟩ ∧
      report.entries.map StageCount.stage = Stage.all := by
  obtain ⟨report, h⟩ := runStages_eq_ok config Stage.all ts
  exact ⟨report, h, stages_of_runStages h⟩

/-- A text that can be cut into tokens is converted. -/
theorem convertWithReport_of_tokenize (config : Config) {source : String} {ts : List Token}
    (h : tokenize source = .ok ts) :
    ∃ report, convertWithReport config source
      = .ok ⟨render (Stage.applyAll config Stage.all ts), report⟩ := by
  obtain ⟨report, hr, -⟩ := convertTokens_eq_ok config ts
  refine ⟨report, ?_⟩
  unfold convertWithReport
  rw [h]
  dsimp only
  rw [hr]

/-- **Conversion is total on tokens.**  On every list of tokens each stage keeps the scope
    balance, so that a run of all six ends well: it leaves what the stages leave one after
    another, and it reports each of them, in their order.  Hence the texts that cannot be
    converted are those that cannot be cut into tokens, and they fail with the same error. -/
theorem convert_fails_only_in_lexing (config : Config) :
    (∀ (stage : Stage) (ts : List Token),
      scopeBalance (stage.apply config ts).tokens = scopeBalance ts) ∧
    (∀ ts : List Token, ∃ report,
      convertTokens config ts = .ok ⟨Stage.applyAll config Stage.all ts, report⟩ ∧
        report.entries.map StageCount.stage = Stage.all) ∧
    ∀ (source : String) (failure : Failure),
      convertWithReport config source = .error failure
        ↔ ∃ e, tokenize source = .error e ∧ failure = .lexical e := by
  refine ⟨Stage.scopeBalance_apply config, convertTokens_eq_ok config, ?_⟩
  intro source failure
  -- Behind the cutting into tokens nothing fails.
  cases h : tokenize source with
  | error e =>
    have hc : convertWithReport config source = .error (.lexical e) := by
      unfold convertWithReport
      rw [h]
    rw [hc]
    constructor
    · intro hf
      cases hf
      exact ⟨e, rfl, rfl⟩
    · rintro ⟨e', he, rfl⟩
      cases he
      rfl
  | ok ts =>
    obtain ⟨report, hc⟩ := convertWithReport_of_tokenize config h
    rw [hc]
    constructor
    · intro hf
      cases hf
    · rintro ⟨e, he, -⟩
      cases he

end Kotlinize
