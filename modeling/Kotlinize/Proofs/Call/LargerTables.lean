import Kotlinize.Proofs.Call.ArgumentColon

namespace Kotlinize

/-!
# Larger tables

The guess about a colon reads two tables, of words and of texts, and each of their entries can
only tell that a colon belongs to no call.  So larger tables leave fewer colons to the calls, and
the pass replaces fewer of them, though each of two runs guesses in a text that it has changed
by itself.

* `Config.TablesWithin` — the tables of one configuration are part of those of another.
* `isCallSite_ofPreceding` — what is a call's by the larger tables is one by the smaller ones.
* `BecomesEquals` — whether the pass replaces the colon at an index.
* `becomesEquals_iff` — it does so if the colon is a call's in the untouched text.
* `becomesEquals_of_tablesWithin` — with larger tables it replaces no other colons.
-/

variable {config config' : Config} {ts : List Token} {t : Token} {i : Nat}

/-! ### Tables -/

/-- The tables of a configuration are part of those of another. -/
structure Config.TablesWithin (config config' : Config) : Prop where
  declarationKeywords : config.declarationKeywords ⊆ config'.declarationKeywords
  closureOpeners : config.closureOpeners ⊆ config'.closureOpeners

instance (config config' : Config) : Decidable (config.TablesWithin config') :=
  decidable_of_iff (config.declarationKeywords ⊆ config'.declarationKeywords ∧
      config.closureOpeners ⊆ config'.closureOpeners)
    ⟨fun h => ⟨h.1, h.2⟩, fun h => ⟨h.1, h.2⟩⟩

namespace Config.TablesWithin

theorem isDeclarationKeyword (h : config.TablesWithin config') {text : String}
    (hnot : config'.isDeclarationKeyword text = false) :
    config.isDeclarationKeyword text = false := by
  rw [Config.isDeclarationKeyword, List.contains_eq_mem, decide_eq_false_iff_not] at hnot ⊢
  exact fun hmem => hnot (h.declarationKeywords hmem)

theorem isClosureOpener (h : config.TablesWithin config') {text : String}
    (hopener : config.isClosureOpener text = true) : config'.isClosureOpener text = true := by
  rw [Config.isClosureOpener, List.contains_eq_mem, decide_eq_true_eq] at hopener ⊢
  exact h.closureOpeners hopener

/-- Tables that name no separator have no part that does. -/
theorem sparesSeparators (h : config.TablesWithin config') (hspares : config'.SparesSeparators) :
    config.SparesSeparators := fun text ht =>
  ⟨fun hmem => (hspares text ht).1 (h.declarationKeywords hmem),
    fun hmem => (hspares text ht).2 (h.closureOpeners hmem)⟩

/-- A token that decides nothing by the larger tables decides nothing by the smaller ones. -/
theorem decidedBy?_eq_none (h : config.TablesWithin config') {next? : Option Token}
    (hnone : ColonRole.decidedBy? config' next? t = none) :
    ColonRole.decidedBy? config next? t = none := by
  obtain ⟨hkeyword, hcloses, hmark⟩ := ColonRole.decidedBy?_eq_none_iff.1 hnone
  refine ColonRole.decidedBy?_eq_none_iff.2 ⟨h.isDeclarationKeyword hkeyword, ?_, hmark⟩
  rw [Bool.eq_false_iff] at hcloses ⊢
  refine fun hopens => hcloses ?_
  rw [Bool.and_eq_true] at hopens ⊢
  obtain ⟨n, rfl, hn⟩ := (Option.any_eq_true _ _).1 hopens.2
  exact ⟨hopens.1, h.isClosureOpener hn⟩

/-- A token that decides for a call by the larger tables does so by the smaller ones. -/
theorem decidesForCall (h : config.TablesWithin config')
    (hcall : Kotlinize.decidesForCall config' t = true) :
    Kotlinize.decidesForCall config t = true := by
  rw [Kotlinize.decidesForCall, Bool.and_eq_true, Bool.not_eq_true'] at hcall ⊢
  exact ⟨hcall.1, h.isDeclarationKeyword hcall.2⟩

/-- **Larger tables leave fewer colons to the calls.**  Behind any tokens, a colon that is a
    call's by the larger tables is one by the smaller ones. -/
theorem isCallSite_ofPreceding (h : config.TablesWithin config') (next? : Option Token)
    (before : List Token)
    (hcall : (ColonRole.ofPreceding config' next? before).isCallSite = true) :
    (ColonRole.ofPreceding config next? before).isCallSite = true := by
  induction before generalizing next? with
  | nil => rfl
  | cons t before ih =>
    cases hdecided : ColonRole.decidedBy? config' next? t with
    | none =>
      -- By both tables the guess goes on with the token before this one.
      rw [ColonRole.ofPreceding_cons_of_undecided hdecided] at hcall
      rw [ColonRole.ofPreceding_cons_of_undecided (h.decidedBy?_eq_none hdecided)]
      exact ih _ hcall
    | some role =>
      rw [ColonRole.ofPreceding, hdecided, Option.getD_some,
        ColonRole.isCallSite_of_decidedBy? hdecided] at hcall
      -- The token is a point or an arrow, so it decides by the smaller tables as well.
      have hmark : isCallMark t = true := (Bool.and_eq_true_iff.1 hcall).1
      obtain ⟨role', hdecided'⟩ : ∃ role', ColonRole.decidedBy? config next? t = some role' := by
        rw [← Option.ne_none_iff_exists', Ne, ColonRole.decidedBy?_eq_none_iff, hmark]
        simp
      rw [ColonRole.ofPreceding, hdecided', Option.getD_some,
        ColonRole.isCallSite_of_decidedBy? hdecided']
      exact h.decidesForCall hcall

theorem isCallSite_colonRole (h : config.TablesWithin config') (ts : List Token) (i : Nat)
    (hcall : (colonRole config' ts i).isCallSite = true) :
    (colonRole config ts i).isCallSite = true :=
  h.isCallSite_ofPreceding _ _ hcall

theorem isArgumentColon (h : config.TablesWithin config')
    (hcolon : isArgumentColon config' ts i = true) :
    Kotlinize.isArgumentColon config ts i = true := by
  rw [Kotlinize.isArgumentColon, Bool.and_eq_true] at hcolon ⊢
  exact ⟨hcolon.1, h.isCallSite_colonRole ts i hcolon.2⟩

end Config.TablesWithin

/-! ### Colons that the pass replaces -/

/-- Whether a colon stands at an index and an equals sign in its place after the pass over named
    arguments.  The pass writes no more than spaces besides, so the place is counted without
    spacing. -/
def BecomesEquals (config : Config) (ts : List Token) (i : Nat) : Prop :=
  ts[i]?.any isColon = true ∧
    (unspaced (nameArguments config ts).tokens)[(unspaced (ts.take i)).length]?
      = some (.symbol "=")

instance (config : Config) (ts : List Token) (i : Nat) : Decidable (BecomesEquals config ts i) :=
  inferInstanceAs (Decidable (_ ∧ _))

theorem isSpacing_of_isColon (h : isColon t = true) : t.isSpacing = false :=
  isSpacing_eq_false (isTrivia_of_is h (by decide) (by decide) (by decide))

/-- Apart from spacing, the pass writes one token for each. -/
theorem unspaced_argumentSlot (config : Config) (ts : List Token) (i : Nat) :
    unspaced (argumentSlot config ts i)
      = (unspaced ts[i]?.toList).map (argumentToken config ts i) := by
  have hgap : unspaced (argumentGap config ts i) = [] := by
    rcases argumentGap_eq config ts i with hg | hg <;> rw [hg] <;> rfl
  rw [argumentSlot, unspaced, List.filter_append, ← unspaced, ← unspaced, hgap, List.nil_append]
  cases ht : ts[i]? with
  | none => rfl
  | some t =>
    by_cases harg : isArgumentColon config ts i = true
    · obtain ⟨u, hu, hc⟩ := exists_of_isArgumentColon harg
      obtain rfl : t = u := Option.some.inj (ht.symm.trans hu)
      have hsign : (Token.symbol "=").isSpacing = false := rfl
      simp [unspaced, argumentToken, harg, isSpacing_of_isColon hc, hsign]
    · have hself : argumentToken config ts i = id := funext fun u => if_neg harg
      rw [hself, List.map_id]
      rfl

/-- **Which colons the pass replaces**: those that are a call's in the untouched text. -/
theorem becomesEquals_iff (h : config.SparesSeparators) :
    BecomesEquals config ts i ↔ isArgumentColon config ts i = true := by
  have hplace : ∀ t, ts[i]? = some t → isColon t = true →
      (unspaced (nameArguments config ts).tokens)[(unspaced (ts.take i)).length]?
        = some (argumentToken config ts i t) := by
    intro t ht hc
    rw [tokens_nameArguments h, renamed]
    exact getElem?_unspaced_slots (unspaced_argumentSlot config ts) ht (isSpacing_of_isColon hc)
      (Nat.lt_succ_of_lt (List.getElem?_eq_some_iff.1 ht).1)
  constructor
  · rintro ⟨hcolon, hequals⟩
    obtain ⟨t, ht, hc⟩ := (Option.any_eq_true _ _).1 hcolon
    rw [hplace t ht hc, argumentToken] at hequals
    by_contra harg
    rw [if_neg harg, Option.some.injEq] at hequals
    rw [hequals] at hc
    exact absurd hc (by decide)
  · intro harg
    obtain ⟨t, ht, hc⟩ := exists_of_isArgumentColon harg
    refine ⟨by rw [ht]; exact hc, ?_⟩
    rw [hplace t ht hc, argumentToken, if_pos harg]

/-- **The guess is monotone in its tables.**  If the tables of one configuration are part of those
    of another, then in every text and at every index, what is a call's colon by the larger tables
    is one by the smaller ones.  If the larger tables name no separator, then each colon that the
    pass replaces with them it replaces with the smaller ones, and it counts no more of them. -/
theorem becomesEquals_of_tablesWithin (h : config.TablesWithin config') (ts : List Token) :
    (∀ i, (colonRole config' ts i).isCallSite = true →
      (colonRole config ts i).isCallSite = true) ∧
    (config'.SparesSeparators →
      (∀ i, BecomesEquals config' ts i → BecomesEquals config ts i) ∧
        (nameArguments config' ts).count ≤ (nameArguments config ts).count) := by
  refine ⟨h.isCallSite_colonRole ts, fun hspares' => ?_⟩
  have hspares : config.SparesSeparators := h.sparesSeparators hspares'
  refine ⟨fun i hi => ?_, ?_⟩
  · rw [becomesEquals_iff hspares]
    exact h.isArgumentColon ((becomesEquals_iff hspares').1 hi)
  · rw [count_nameArguments hspares, count_nameArguments hspares']
    exact List.countP_mono_left fun i _ => h.isArgumentColon

/-- A closure with a parameter, and a call behind it. -/
def closureAndCall : List Token :=
  [Bracket.curly.openToken, Bracket.round.openToken, .identifier "a", .symbol ":",
    .identifier "A", Bracket.round.closeToken, .identifier "b", Bracket.curly.closeToken,
    .symbol ".", .identifier "c", Bracket.round.openToken, .identifier "d", .symbol ":",
    .identifier "e", Bracket.round.closeToken]

/-- Without closure openers the pass replaces the colon of the call as before, and that of the
    closure too. -/
theorem becomesEquals_without_closureOpeners :
    Config.TablesWithin { closureOpeners := [] } .default ∧ Config.default.SparesSeparators ∧
      BecomesEquals .default closureAndCall 12 ∧
      BecomesEquals { closureOpeners := [] } closureAndCall 12 ∧
      ¬ BecomesEquals .default closureAndCall 3 ∧
      BecomesEquals { closureOpeners := [] } closureAndCall 3 := by
  have hwithin : Config.TablesWithin { closureOpeners := [] } .default := by decide
  have hspares : Config.default.SparesSeparators := by decide
  have hcall : BecomesEquals .default closureAndCall 12 := by decide
  exact ⟨hwithin, hspares, hcall,
    ((becomesEquals_of_tablesWithin hwithin closureAndCall).2 hspares).1 12 hcall,
    by decide, by decide⟩

end Kotlinize
