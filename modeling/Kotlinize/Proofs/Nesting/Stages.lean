import Kotlinize.Proofs.Frame
import Kotlinize.Proofs.Nesting.Scopes

namespace Kotlinize

/-!
# The stages keep a text nested

What is open behind a text depends on its scope tokens alone, and four stages leave those as they
are.  The other two write empty pairs or take a pair away: the parentheses of `(set)`, which are
neighbours but for a name, and the braces of a property, which are partners because the count
of braces finds the true partner in a text that can be read (`nested_inside`).

* `isScope`, `openScopes_congr` — the tokens that the reading depends on.
* `openScopes_withGetter`, `openScopes_withoutBraces`, `openScopes_of_restricted?` — the edits
  that write or take brackets.
* `Rewrite.openScopes_eq` — behind a rewritten text is open what was open before.
* `convertTokens_nested` — hence every stage and every run keep a text nested.
-/

variable {config : Config} {stage : Stage} {ts : List Token} {scopes out : List Bracket}

/-! ### What the reading depends on -/

/-- Whether a token opens or closes a scope. -/
def isScope (t : Token) : Bool := t.kind == .startOfScope || t.kind == .endOfScope

theorem scopeStep_of_isScope {t : Token} (h : isScope t = false) : t.scopeStep = 0 := by
  simp only [isScope, Bool.or_eq_false_iff, beq_eq_false_iff_ne] at h
  exact scopeStep_eq_zero h.1 h.2

theorem unruled_isScope : Unruled isScope where
  spacing := .of_kind <| by rintro t (h | h) <;> simp [isScope, h]
  identifier t h := by
    rw [Token.isIdentifier, beq_iff_eq] at h
    simp [isScope, h]
  keyword t h := by
    rw [Token.isKeyword, beq_iff_eq] at h
    simp [isScope, h]
  symbol t text _ h := by simp [isScope, (Token.is_iff.1 h).1]

theorem openScopes_filter_isScope (scopes : List Bracket) (ts : List Token) :
    openScopes scopes (ts.filter isScope) = openScopes scopes ts := by
  induction ts generalizing scopes with
  | nil => rfl
  | cons t ts ih =>
    by_cases ht : isScope t = true
    · simp [ht, ih]
    · have hz := scopeStep_of_isScope (Bool.eq_false_iff.2 ht)
      simp [ht, ih, scopesAfter_of_scopeStep hz]

/-- Texts with the same scope tokens leave the same brackets open. -/
theorem openScopes_congr {as bs : List Token} (h : bs.filter isScope = as.filter isScope)
    (scopes : List Bracket) : openScopes scopes bs = openScopes scopes as := by
  rw [← openScopes_filter_isScope scopes bs, h, openScopes_filter_isScope]

theorem openScopes_of_filter_eq_nil (h : ts.filter isScope = []) (scopes : List Bracket) :
    openScopes scopes ts = some scopes := by
  rw [← openScopes_filter_isScope, h, openScopes_nil]

theorem openScopes_of_isSpacing (h : ∀ t ∈ ts, t.isSpacing = true) :
    openScopes scopes ts = some scopes :=
  openScopes_of_filter_eq_nil (unruled_isScope.spacing.filter_eq_nil h) scopes

/-! ### The parts of an edit -/

@[simp] theorem openScopes_gapAfter (scopes : List Bracket) (ts : List Token) :
    openScopes scopes (gapAfter ts) = some scopes :=
  openScopes_of_filter_eq_nil (unruled_isScope.spacing.filter_gapAfter ts) scopes

@[simp] theorem openScopes_dropEndIf_isWhitespace (scopes : List Bracket) (ts : List Token) :
    openScopes scopes (dropEndIf Token.isWhitespace ts) = openScopes scopes ts :=
  openScopes_congr
    (unruled_isScope.spacing.filter_dropEndIf (fun _ => isSpacing_of_isWhitespace) ts) scopes

@[simp] theorem openScopes_unclosed (scopes : List Bracket) (inside tail : List Token) :
    openScopes scopes (unclosed inside tail) = openScopes scopes inside :=
  openScopes_congr (unruled_isScope.spacing.filter_unclosed inside tail) scopes

theorem nested_parentheses {parameter : List Token} (h : ∀ t ∈ parameter, t.scopeStep = 0) :
    Nested (parentheses parameter) := by
  have ho : Bracket.round.opens Bracket.round.openToken = true := by decide
  have hc : Bracket.round.closes Bracket.round.closeToken = true := by decide
  simp [Nested, parentheses, scopesAfter_of_opens ho, scopesAfter_of_closes hc,
    openScopes_of_scopeStep h]

@[simp] theorem openScopes_openGetter (scopes : List Bracket) (body : List Token) :
    openScopes scopes (openGetter body) = openScopes scopes body := by
  have hpar : Nested (parentheses []) := nested_parentheses (by simp)
  unfold openGetter
  split
  · rfl
  · rename_i a ha
    rw [← (of_accessorAt? ha).1]
    simp [Accessor.whole, hpar.openScopes_eq]

@[simp] theorem openScopes_openSetter (scopes : List Bracket) (body : List Token) :
    openScopes scopes (openSetter config body) = openScopes scopes body := by
  have hpar : Nested (parentheses [.identifier config.implicitSetterParameter]) :=
    nested_parentheses (by simp [Token.identifier, Token.scopeStep])
  unfold openSetter
  split
  · rfl
  · rename_i a ha
    split
    · rw [← (of_accessorAt? ha).1]
      simp [Accessor.whole, hpar.openScopes_eq]
    · rfl

/-! ### Edits that write or take brackets -/

/-- A getter around the statements of a property adds an empty pair of parentheses. -/
theorem openScopes_withGetter (scopes : List Bracket) (b : PropertyBody) :
    openScopes scopes b.withGetter = openScopes scopes b.whole := by
  have hpar : Nested (parentheses []) := nested_parentheses (by simp)
  have hget : (Token.identifier "get").scopeStep = 0 := rfl
  have hspace : Token.space.scopeStep = 0 := rfl
  simp [PropertyBody.withGetter, PropertyBody.whole, hpar.openScopes_eq,
    scopesAfter_of_scopeStep hget, scopesAfter_of_scopeStep hspace]

/-- The braces that the accessors of a property leave are partners, and what stands between
    them is nested; so nothing changes behind them. -/
theorem openScopes_withoutBraces {b : PropertyBody} (h : propertyBody? ts = some b)
    (hr : openScopes scopes ts = some out) :
    openScopes scopes (b.withoutBraces config) = some out := by
  obtain ⟨_, _, _, rest, -, -, -, -, ho, he⟩ := propertyBody?_eq_some h
  rw [← whole_of_propertyBody? h, PropertyBody.whole, Bracket.whole_of_enclosed? he,
    openScopes_append, Option.bind_eq_some_iff] at hr
  obtain ⟨between, hlead, hbody⟩ := hr
  obtain ⟨hinside, htail⟩ := nested_inside ho he hbody
  simp [PropertyBody.withoutBraces, hlead, hinside.openScopes_eq, htail]

theorem openScopes_of_suffixed? {keyword keyword' : Token} {edited : List Token}
    (h : suffixed? config keyword ts = some (keyword', edited))
    (hr : openScopes scopes ts = some out) : openScopes scopes edited = some out := by
  obtain ⟨b, hb, ⟨-, -, rfl⟩ | ⟨_, -, -, rfl⟩⟩ := suffixed?_eq_some h
  · rwa [openScopes_withGetter, whole_of_propertyBody? hb]
  · exact openScopes_withoutBraces hb hr

/-- The parentheses of a restricted setter hold a name only. -/
theorem openScopes_of_restricted? {declaration : List Token}
    (h : restricted? ts = some declaration) (scopes : List Bracket) :
    openScopes scopes declaration = openScopes scopes ts := by
  obtain ⟨before, opener, word, closer, behind, rfl, hb, ho, hw, hc, hs, -⟩ :=
    restricted?_eq_some h
  have hword := scopeStep_of_is hw (by decide) (by decide)
  simp [openScopes_of_isSpacing hb, openScopes_of_isSpacing hs, scopesAfter_of_opens ho,
    scopesAfter_of_closes hc, scopesAfter_of_scopeStep hword]

/-! ### One rewrite -/

/-- **Behind a rewritten text is open what was open before**, if the text can be read. -/
theorem Rewrite.openScopes_eq {as bs : List Token} (h : Rewrite config stage as bs)
    (ha : openScopes scopes as = some out) : openScopes scopes bs = some out := by
  have hunruled := h.filter_unruled unruled_isScope
  cases h with
  | nameArgument | dropLabel | returnArrow | markLateInit =>
    rwa [openScopes_congr (hunruled (by decide) (by decide))]
  | suffixAccessors pre keyword ts keyword' edited hk hs =>
    have hz := scopeStep_of_is hk (by decide) (by decide)
    have hz' : keyword'.scopeStep = 0 := by
      rcases keyword_of_suffixed? hs with rfl | rfl
      · exact hz
      · rfl
    rw [openScopes_append, Option.bind_eq_some_iff] at ha ⊢
    obtain ⟨between, hpre, hts⟩ := ha
    rw [openScopes_cons, scopesAfter_of_scopeStep hz, Option.bind_some] at hts
    refine ⟨between, hpre, ?_⟩
    simpa [scopesAfter_of_scopeStep hz'] using openScopes_of_suffixed? hs hts
  | relocateSetter pre modifier ts line after hm hr _ hl =>
    have hz := scopeStep_of_isKeyword hm
    -- The new line holds no bracket.
    have hline : ∀ scopes, openScopes scopes (setterLine config (lineHead? pre) modifier after)
        = some scopes :=
      openScopes_of_filter_eq_nil (unruled_isScope.filter_setterLine _ hm hl)
    simp only [openScopes_append, openScopes_cons, scopesAfter_of_scopeStep hz, Option.bind_some,
      ← openScopes_of_restricted? hr] at ha
    simpa [hline] using ha

/-! ### Whole runs -/

/-- Any stages, in any order, leave open behind a text what was open before. -/
theorem openScopes_applyAll (config : Config) (stages : List Stage)
    (h : openScopes scopes ts = some out) :
    openScopes scopes (Stage.applyAll config stages ts) = some out :=
  Stage.applyAll_preserves (P := fun us => openScopes scopes us = some out) stages
    (fun _ _ _ _ hr => hr.openScopes_eq) ts h

/-- **A run keeps a text nested.**  If every closing token of a text closes the bracket opened
    last and none is left open, then this holds after each stage by itself, after any stages one
    after another, and of what a run of all six leaves. -/
theorem convertTokens_nested (config : Config) {ts : List Token} (h : Nested ts) :
    (∀ stage : Stage, Nested (stage.apply config ts).tokens) ∧
    (∀ stages : List Stage, Nested (Stage.applyAll config stages ts)) ∧
    ∃ o, convertTokens config ts = .ok o ∧ Nested o.tokens := by
  have hall : ∀ stages, Nested (Stage.applyAll config stages ts) := fun stages =>
    openScopes_applyAll config stages h
  obtain ⟨report, hrun, -⟩ := convertTokens_eq_ok config ts
  exact ⟨fun stage => hall [stage], hall, _, hrun, hall Stage.all⟩

/-- The accessors of a property leave their braces, with a parenthesis open around the property
    and nested brackets between the braces. -/
theorem convertTokens_nested_accessors :
    ∃ ts, tokenize "(var a:I{get{[]}})" = .ok ts ∧ Nested ts ∧
      ∃ o, convertTokens .default ts = .ok o ∧ Nested o.tokens := by
  have hopen : (tokenize "(var a:I{get{[]}})").toOption.map (openScopes [])
      = some (some []) := by
    cbv
  cases h : tokenize "(var a:I{get{[]}})" with
  | error e => simp [h, Except.toOption] at hopen
  | ok ts =>
    have hts : Nested ts := by simpa [h, Except.toOption, Nested] using hopen
    exact ⟨ts, rfl, hts, (convertTokens_nested .default hts).2.2⟩

end Kotlinize
