import Kotlinize.Proofs.Bystander
import Kotlinize.Proofs.ScopeBalance

namespace Kotlinize

/-!
# What no rule touches

Comments, literals, square brackets and all operators but the four that the rules are about pass
through a run as they are: none is lost, doubled, moved or changed, on any list of tokens.

* `Unruled` — classes of tokens without the words and symbols that the rules are about.
* `Rewrite.filter_unruled` — the stages that deal with no bracket leave such a class alone.
* `isKept` — the tokens that no rule touches.
* `Rewrite.filter_isKept` — a single rewrite leaves them alone, one case for each kind.
* `convertTokens_filter_isKept` — hence a whole run does.
-/

variable {config : Config} {stage : Stage} {p : Token → Bool} {t : Token} {ts : List Token}

/-! ### Classes without what the rules are about -/

/-- The symbols that the rules take and write. -/
def ruledSymbols : List String := [":", "=", "->", "!"]

/-- No spacing, no name, no keyword and no symbol of the rules belongs to a class. -/
structure Unruled (p : Token → Bool) : Prop where
  spacing : SkipsSpacing p
  identifier : ∀ t, t.isIdentifier = true → p t = false
  keyword : ∀ t, t.isKeyword = true → p t = false
  symbol : ∀ t, ∀ text ∈ ruledSymbols, t.is .symbol text = true → p t = false

namespace Unruled

theorem of_isLabel (h : Unruled p) (hl : isLabel t = true) : p t = false := by
  rw [isLabel, Bool.or_eq_true, Bool.and_eq_true] at hl
  rcases hl with hl | ⟨hl, -⟩
  · exact h.identifier t hl
  · exact h.keyword t hl

theorem of_is_keyword (h : Unruled p) {text : String} (hk : t.is .keyword text = true) :
    p t = false :=
  h.keyword t (by simp [Token.isKeyword, (Token.is_iff.1 hk).1])

theorem of_is_identifier (h : Unruled p) {text : String} (hi : t.is .identifier text = true) :
    p t = false :=
  h.identifier t (by simp [Token.isIdentifier, (Token.is_iff.1 hi).1])

theorem token_symbol (h : Unruled p) (text : String) (ht : text ∈ ruledSymbols) :
    p (.symbol text) = false :=
  h.symbol _ text ht (by simp [Token.symbol])

theorem filter_equalsSign (h : Unruled p) (written ts : List Token) :
    (equalsSign written ts).filter p = [] := by
  have hsign := h.token_symbol "=" (by decide)
  unfold equalsSign
  split <;> simp [hsign, h.spacing.space, h.spacing.filter_gapBefore]

theorem filter_unlabelled? (h : Unruled p) {parameter bare : List Token}
    (hp : unlabelled? parameter = some bare) : bare.filter p = parameter.filter p := by
  obtain ⟨trivia, label, spacing, rest, rfl, rfl, -, hl, hs, -⟩ := unlabelled?_eq_some hp
  simp [h.of_isLabel hl, h.spacing.filter_eq_nil hs]

theorem filter_signature? (h : Unruled p) {s : Signature} (hs : signature? config ts = some s) :
    s.before.filter p ++ s.result.filter p = ts.filter p := by
  have ha := h.symbol s.arrow "->" (by decide) (isArrow_of_signature? hs)
  rw [← whole_of_signature? hs]
  simp [Signature.whole, ha]

theorem filter_setterLine (h : Unruled p) (head? : Option Token) {modifier : Token}
    {after : List Token} (hm : modifier.isKeyword = true)
    (ha : after.head?.all Token.isLinebreak = true) :
    (setterLine config head? modifier after).filter p = [] := by
  have hend : p (after.head?.getD .newline) = false :=
    h.spacing _ (isSpacing_of_isLinebreak (isLinebreak_lineEnd ha))
  have hindent : ∀ text, p (.whitespace text) = false := fun _ => h.spacing _ rfl
  have hset : p (.identifier "set") = false := h.identifier _ rfl
  simp [setterLine, hend, hindent, hset, h.keyword modifier hm, h.spacing.space]

theorem filter_unmarked? (h : Unruled p) {us : List Token} (hu : unmarked? ts = some us) :
    us.filter p = ts.filter p := by
  obtain ⟨n, type, mark, rest, -, rfl, rfl, -, -, hm⟩ := unmarked?_eq_some hu
  simp [h.symbol mark "!" (by decide) hm]

end Unruled

/-- Two stages take brackets and may write some, the one for accessors and the one for setters.
    The others leave alone every class without what the rules are about. -/
theorem Rewrite.filter_unruled {as bs : List Token} (h : Rewrite config stage as bs)
    (hp : Unruled p) (hc : stage ≠ .computedProperties) (hr : stage ≠ .restrictedSetters) :
    bs.filter p = as.filter p := by
  cases h with
  | nameArgument pre colon post hcolon =>
    have hz := hp.symbol colon ":" (by decide) hcolon
    simp [hp.filter_equalsSign, hz]
  | dropLabel pre separator parameter bare post _ hb =>
    simp [hp.filter_unlabelled? hb, List.filter_cons]
  | returnArrow pre keyword ts s hk hs =>
    have hz := hp.token_symbol ":" (by decide)
    simp [← hp.filter_signature? hs, hp.of_is_keyword hk, hz, hp.spacing.filter_dropSpacingEnd,
      hp.spacing.filter_gapBefore]
  | suffixAccessors => exact absurd rfl hc
  | relocateSetter => exact absurd rfl hr
  | markLateInit pre keyword ts us hk hu =>
    have hmodifier : lateInitModifier.filter p = [] := by
      simp [lateInitModifier, hp.keyword (.keyword "lateinit") rfl, hp.spacing.space]
    simp [hmodifier, hp.of_is_keyword hk, hp.filter_unmarked? hu]

/-! ### The tokens -/

/-- Whether no rule touches a token: comments, literals, square brackets, and the symbols that
the rules do not name. -/
def isKept (t : Token) : Bool :=
  match t.kind with
  | .comment | .stringLiteral | .number => true
  | .startOfScope => t.text == Bracket.square.opener
  | .endOfScope => t.text == Bracket.square.closer
  | .symbol => !ruledSymbols.contains t.text
  | .identifier | .keyword | .whitespace | .linebreak => false

theorem unruled_isKept : Unruled isKept where
  spacing := .of_kind <| by rintro t (h | h) <;> simp [isKept, h]
  identifier t h := by
    rw [Token.isIdentifier, beq_iff_eq] at h
    simp [isKept, h]
  keyword t h := by
    rw [Token.isKeyword, beq_iff_eq] at h
    simp [isKept, h]
  symbol t text ht h := by
    rw [Token.is_iff] at h
    simp [isKept, h.1, h.2, ht]

theorem isKept_of_opens {b : Bracket} (h : b.opens t = true) (hb : b ≠ .square) :
    isKept t = false := by
  rw [Bracket.opens, Token.is_iff] at h
  cases b with
  | square => exact absurd rfl hb
  | round | curly => simp [isKept, h.1, h.2, Bracket.opener]

theorem isKept_of_closes {b : Bracket} (h : b.closes t = true) (hb : b ≠ .square) :
    isKept t = false := by
  rw [Bracket.closes, Token.is_iff] at h
  cases b with
  | square => exact absurd rfl hb
  | round | curly => simp [isKept, h.1, h.2, Bracket.closer]

/-- The edits of accessors pass by the tokens that no rule touches. -/
theorem bystander_isKept : Bystander isKept where
  spacing := unruled_isKept.spacing
  identifier _ := rfl
  opener := by decide
  closer := by decide

/-! ### One rewrite -/

theorem filter_isKept_of_suffixed? {keyword keyword' : Token} {edited : List Token}
    (h : suffixed? config keyword ts = some (keyword', edited)) :
    edited.filter isKept = ts.filter isKept := by
  obtain ⟨p, hp, hform⟩ := suffixed?_eq_some h
  have ho := isKept_of_opens (opens_of_propertyBody? hp) (by decide)
  have hc := isKept_of_closes (closes_of_propertyBody? hp) (by decide)
  rw [← whole_of_propertyBody? hp]
  rcases hform with ⟨-, -, rfl⟩ | ⟨_, -, -, rfl⟩
  · exact bystander_isKept.filter_withGetter p
  · rw [bystander_isKept.filter_withoutBraces]
    simp [PropertyBody.whole, Enclosed.whole, ho, hc]

theorem filter_isKept_of_restricted? {declaration : List Token}
    (h : restricted? ts = some declaration) :
    declaration.filter isKept = ts.filter isKept := by
  obtain ⟨before, opener, word, closer, behind, rfl, hb, ho, hw, hc, hs, -⟩ :=
    restricted?_eq_some h
  have hspacing := unruled_isKept.spacing
  simp [hspacing.filter_eq_nil hb, hspacing.filter_eq_nil hs, unruled_isKept.of_is_identifier hw,
    isKept_of_opens ho (by decide), isKept_of_closes hc (by decide)]

/-- **A rewrite leaves alone what no rule is about.** -/
theorem Rewrite.filter_isKept {as bs : List Token} (h : Rewrite config stage as bs) :
    bs.filter isKept = as.filter isKept := by
  have hunruled := h.filter_unruled unruled_isKept
  cases h with
  | nameArgument | dropLabel | returnArrow | markLateInit =>
    exact hunruled (by decide) (by decide)
  | suffixAccessors pre keyword ts keyword' edited hk hs =>
    have hkeyword' : isKept keyword' = false := by
      rcases keyword_of_suffixed? hs with rfl | rfl
      · exact unruled_isKept.of_is_keyword hk
      · rfl
    simp [unruled_isKept.of_is_keyword hk, hkeyword', filter_isKept_of_suffixed? hs]
  | relocateSetter pre modifier ts line after hm hr _ ha =>
    have hd := filter_isKept_of_restricted? hr
    rw [List.filter_append] at hd
    simp [unruled_isKept.keyword modifier hm, unruled_isKept.filter_setterLine _ hm ha, hd]

/-! ### Whole runs -/

/-- **What no rule touches passes through.**  On every list of tokens and with any configuration,
    a run of all stages ends well, and the comments, the literals, the square brackets and the
    symbols other than colon, equals sign, arrow and exclamation mark are the same after it, with
    their kinds, texts, places and order. -/
theorem convertTokens_filter_isKept (config : Config) (ts : List Token) :
    ∃ o, convertTokens config ts = .ok o ∧ o.tokens.filter isKept = ts.filter isKept := by
  obtain ⟨report, hrun, -⟩ := convertTokens_eq_ok config ts
  refine ⟨_, hrun, ?_⟩
  refine Stage.applyAll_preserves (P := fun us => us.filter isKept = ts.filter isKept)
    Stage.all (fun _ _ as bs h ha => ?_) ts rfl
  rw [h.filter_isKept, ha]

end Kotlinize
