import Kotlinize.Proofs.Bystander
import Kotlinize.Proofs.Rewrite

namespace Kotlinize

/-!
# Tokens that no edit makes

Edits make spaces, names, symbols, parentheses and two keywords of their own, and otherwise only
take tokens away.  So of every class of tokens that they do not make, a text holds no others after
a rewrite than before it, in the same order.  The pass over setters, which moves keywords and
copies line ends, stands apart.

* `Unmade` — classes without the tokens that edits make.
* `unclosed_sublist`, `signature_sublist`, … — what edits take tokens away from.
* `Rewrite.filter_sublist` — a rewrite takes tokens of such a class away, and nothing else.
* `Rewrite.exists_of_restrictedSetters` — a moved setter: what goes, what moves, what is written.
-/

variable {config : Config} {stage : Stage} {p : Token → Bool} {ts as bs : List Token}

/-! ### Classes -/

/-- No token that an edit makes belongs to a class, the modifier `lateinit` apart. -/
structure Unmade (p : Token → Bool) : Prop extends AccessorFree p where
  symbol : ∀ text, p (.symbol text) = false
  constant : p constantKeyword = false

namespace Unmade

/-- The same holds of a smaller class. -/
theorem and_right (h : Unmade p) (q : Token → Bool) : Unmade fun t => p t && q t where
  space := by rw [h.space, Bool.false_and]
  identifier text := by rw [h.identifier, Bool.false_and]
  symbol text := by rw [h.symbol, Bool.false_and]
  opener := by rw [h.opener, Bool.false_and]
  closer := by rw [h.closer, Bool.false_and]
  constant := by rw [h.constant, Bool.false_and]

theorem filter_equalsSign (h : Unmade p) (written ts : List Token) :
    (equalsSign written ts).filter p = [] := by
  unfold equalsSign
  split <;> simp [h.space, h.symbol, filter_gapBefore_eq_nil h.space]

theorem filter_lateInitModifier (h : Unmade p) (hl : p (.keyword "lateinit") = false) :
    lateInitModifier.filter p = [] := by
  simp [lateInitModifier, h.space, hl]

end Unmade

/-! ### What edits take away -/

theorem dropSpacingEnd_sublist (ts : List Token) : (dropSpacingEnd ts).Sublist ts := by
  obtain ⟨spacing, -, hw⟩ := exists_eq_dropSpacingEnd_append ts
  conv => rhs; rw [hw]
  exact List.sublist_append_left _ _

theorem unclosed_sublist (inside tail : List Token) : (unclosed inside tail).Sublist inside := by
  unfold unclosed
  dsimp only
  split
  · exact (dropEndIf_sublist _ _).trans (dropEndIf_sublist _ _)
  · exact dropEndIf_sublist _ _

theorem unlabelled?_sublist {parameter bare : List Token} (h : unlabelled? parameter = some bare) :
    bare.Sublist parameter := by
  obtain ⟨trivia, label, spacing, rest, rfl, rfl, -⟩ := unlabelled?_eq_some h
  exact (List.Sublist.refl trivia).append ((List.sublist_append_right spacing rest).cons label)

theorem unmarked?_sublist {us : List Token} (h : unmarked? ts = some us) : us.Sublist ts := by
  obtain ⟨n, type, mark, rest, -, rfl, rfl, -⟩ := unmarked?_eq_some h
  exact (List.Sublist.refl _).append ((List.Sublist.refl _).append (List.sublist_cons_self _ _))

theorem signature_sublist {s : Signature} (h : signature? config ts = some s) :
    (dropSpacingEnd s.before ++ s.result).Sublist ts := by
  rw [← whole_of_signature? h]
  exact (dropSpacingEnd_sublist _).append (List.sublist_cons_self _ _)

/-- Accessors that leave their braces bring no token of the class along. -/
theorem Unmade.filter_withoutBraces_sublist (h : Unmade p) (b : PropertyBody) :
    ((b.withoutBraces config).filter p).Sublist (b.whole.filter p) := by
  have hlead := (dropEndIf_sublist Token.isWhitespace b.lead).filter p
  have hinside := (unclosed_sublist b.enclosed.inside b.enclosed.tail).filter p
  have htail := (List.sublist_cons_self b.enclosed.close b.enclosed.tail).filter p
  have hbraces := (List.sublist_cons_self b.opener b.enclosed.whole).filter p
  rw [PropertyBody.withoutBraces, PropertyBody.whole, List.filter_append, List.filter_append,
    List.filter_append, h.filter_openGetter, h.filter_openSetter]
  refine hlead.append (List.Sublist.trans ?_ hbraces)
  rw [Enclosed.whole, List.filter_append]
  exact hinside.append htail

theorem Unmade.filter_suffixed_sublist (h : Unmade p) {keyword keyword' : Token}
    {edited : List Token} (hs : suffixed? config keyword ts = some (keyword', edited)) :
    (edited.filter p).Sublist (ts.filter p) := by
  obtain ⟨b, hb, ⟨-, -, rfl⟩ | ⟨_, -, -, rfl⟩⟩ := suffixed?_eq_some hs
  · have hsame : b.withGetter.filter p = b.whole.filter p := h.filter_withGetter b
    rw [← whole_of_propertyBody? hb]
    exact hsame ▸ List.Sublist.refl _
  · rw [← whole_of_propertyBody? hb]
    exact h.filter_withoutBraces_sublist b

/-! ### Single rewrites -/

/-- **A rewrite takes tokens of the class away, and nothing else**, unless it moves a setter or
    writes a modifier of the class. -/
theorem Rewrite.filter_sublist (h : Rewrite config stage as bs) (hp : Unmade p)
    (hs : stage ≠ .restrictedSetters)
    (hl : stage = .lateInitProperties → p (.keyword "lateinit") = false) :
    (bs.filter p).Sublist (as.filter p) := by
  cases h with
  | nameArgument pre colon post =>
    have hrest := (List.sublist_cons_self colon post).filter p
    rw [List.filter_append, List.filter_append, List.filter_append, hp.filter_equalsSign,
      List.nil_append]
    exact (List.Sublist.refl _).append hrest
  | dropLabel pre separator parameter bare post _ hb =>
    have hrest := (unlabelled?_sublist hb).append (List.Sublist.refl post)
    exact ((List.Sublist.refl pre).append (hrest.cons_cons separator)).filter p
  | returnArrow pre keyword ts s _ hsig =>
    have hrest := ((signature_sublist hsig).cons_cons keyword).filter p
    -- Colon and gap are made; without them what is left is a part of the signature.
    have hout : (keyword :: (dropSpacingEnd s.before
          ++ .symbol ":" :: (gapBefore s.result ++ s.result))).filter p
        = (keyword :: (dropSpacingEnd s.before ++ s.result)).filter p := by
      simp [List.filter_cons, hp.symbol, filter_gapBefore_eq_nil hp.space]
    rw [List.filter_append, List.filter_append, hout]
    exact (List.Sublist.refl _).append hrest
  | suffixAccessors pre keyword ts keyword' edited _ hedit =>
    have hrest := hp.filter_suffixed_sublist hedit
    rw [List.filter_append, List.filter_append]
    refine (List.Sublist.refl _).append ?_
    rcases keyword_of_suffixed? hedit with rfl | rfl
    · rw [List.filter_cons, List.filter_cons]
      split
      · exact hrest.cons_cons _
      · exact hrest
    · rw [List.filter_cons_of_neg (by simp [hp.constant])]
      exact hrest.trans ((List.sublist_cons_self keyword ts).filter p)
  | relocateSetter => exact absurd rfl hs
  | markLateInit pre keyword ts us _ hu =>
    have hrest := ((unmarked?_sublist hu).cons_cons keyword).filter p
    rw [List.filter_append, List.filter_append, List.filter_append,
      hp.filter_lateInitModifier (hl rfl), List.nil_append]
    exact (List.Sublist.refl _).append hrest

/-- A moved setter: the modifier goes from the front of its declaration to a line of its own
    behind the line of the declaration, and the tokens between the two go. -/
theorem Rewrite.exists_of_restrictedSetters (h : Rewrite config .restrictedSetters as bs) :
    ∃ pre modifier taken line after,
      as = pre ++ modifier :: (taken ++ (line ++ after)) ∧
      bs = pre ++ (line ++ (setterLine config (lineHead? pre) modifier after ++ after)) ∧
      modifier.isKeyword = true ∧ after.head?.all Token.isLinebreak = true := by
  cases h with
  | relocateSetter pre modifier ts line after hm hr _ ha =>
    obtain ⟨before, opener, word, closer, behind, rfl, -⟩ := restricted?_eq_some hr
    exact ⟨pre, modifier, before ++ opener :: word :: closer :: behind, line, after, by simp, rfl,
      hm, ha⟩

end Kotlinize
