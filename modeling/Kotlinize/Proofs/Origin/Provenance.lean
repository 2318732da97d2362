import Kotlinize.Proofs.Origin.Places
import Kotlinize.Proofs.Origin.Unmade
import Kotlinize.Proofs.ScopeBalance

namespace Kotlinize

/-!
# Where tokens come from

A token with a place comes from the source text as it was read there.  Runs keep such tokens or
drop them; only the pass over setters copies some, the line ends, and moves some, the modifiers.

* `Token.isSingle`, `Token.isSteady` — the tokens that are never copied, and never moved either.
* `Rewrite.subperm_single`, `Rewrite.sublist_steady` — what one rewrite does with them.
* `convertTokens_places` — what the places of the tokens after a run say.
-/

variable {config : Config} {stage : Stage} {t : Token} {as bs : List Token}

/-! ### Classes of tokens with a place -/

/-- Whether a token has a place and ends no line. -/
def Token.isSingle (t : Token) : Bool := t.isPlaced && !t.isLinebreak

/-- Whether a token has a place, ends no line and is no keyword. -/
def Token.isSteady (t : Token) : Bool := t.isSingle && !t.isKeyword

theorem unmade_isPlaced : Unmade Token.isPlaced where
  space := by decide
  identifier _ := rfl
  symbol _ := rfl
  opener := by decide
  closer := by decide
  constant := by decide

theorem unmade_isSingle : Unmade Token.isSingle :=
  unmade_isPlaced.and_right fun t => !t.isLinebreak

theorem unmade_isSteady : Unmade Token.isSteady :=
  unmade_isSingle.and_right fun t => !t.isKeyword

theorem isSingle_of_isLinebreak (h : t.isLinebreak = true) : t.isSingle = false := by
  simp [Token.isSingle, h]

theorem isSteady_of_isKeyword (h : t.isKeyword = true) : t.isSteady = false := by
  simp [Token.isSteady, h]

/-- Of the line of a moved setter only the modifier is no copy. -/
theorem filter_isSingle_setterLine (head? : Option Token) (modifier : Token) {after : List Token}
    (ha : after.head?.all Token.isLinebreak = true) :
    (setterLine config head? modifier after).filter Token.isSingle
      = [modifier].filter Token.isSingle := by
  have hend := isSingle_of_isLinebreak (isLinebreak_lineEnd ha)
  have hindent : ∀ text, (Token.whitespace text).isSingle = false := fun _ => rfl
  simp [setterLine, List.filter_cons, hend, hindent, unmade_isSingle.space,
    unmade_isSingle.identifier]

theorem filter_isSteady_setterLine (head? : Option Token) {modifier : Token} {after : List Token}
    (hm : modifier.isKeyword = true) (ha : after.head?.all Token.isLinebreak = true) :
    (setterLine config head? modifier after).filter Token.isSteady = [] := by
  have hsteady : ∀ ts : List Token,
      ts.filter Token.isSteady = (ts.filter Token.isSingle).filter fun t => !t.isKeyword := by
    intro ts
    rw [List.filter_filter]
    exact List.filter_congr fun t _ => Bool.and_comm _ _
  rw [hsteady, filter_isSingle_setterLine head? modifier ha, ← hsteady,
    List.filter_cons_of_neg (by simp [isSteady_of_isKeyword hm]), List.filter_nil]

/-- On the line of a moved setter only the modifier and the copied line end have a place. -/
theorem mem_setterLine_of_isPlaced {head? : Option Token} {modifier : Token} {after : List Token}
    (h : t ∈ setterLine config head? modifier after) (ht : t.isPlaced = true) :
    t = modifier ∨ t ∈ after.head? := by
  have hmade : ∀ u : Token, u.pos = .unplaced → t ≠ u := by
    rintro u hu rfl
    exact Token.isPlaced_iff.1 ht hu
  simp only [setterLine, List.mem_cons, List.not_mem_nil, or_false] at h
  rcases h with hend | hindent | hmodifier | hspace | hset
  · cases hafter : after.head? with
    | none =>
      rw [hafter] at hend
      exact absurd hend (hmade .newline rfl)
    | some lineEnd =>
      rw [hafter] at hend
      exact .inr (congrArg some hend.symm)
  · exact absurd hindent (hmade _ rfl)
  · exact .inl hmodifier
  · exact absurd hspace (hmade .space rfl)
  · exact absurd hset (hmade _ rfl)

/-! ### Single rewrites -/

/-- A token with a place stood in the text before. -/
theorem Rewrite.mem_of_isPlaced (h : Rewrite config stage as bs) (hb : t ∈ bs)
    (ht : t.isPlaced = true) : t ∈ as := by
  by_cases hs : stage = .restrictedSetters
  · subst hs
    obtain ⟨pre, modifier, taken, line, after, rfl, rfl, -, -⟩ := h.exists_of_restrictedSetters
    simp only [List.mem_append, List.mem_cons] at hb ⊢
    rcases hb with hb | hb | hb | hb
    · exact .inl hb
    · exact .inr (.inr (.inr (.inl hb)))
    · rcases mem_setterLine_of_isPlaced hb ht with rfl | hb
      · exact .inr (.inl rfl)
      · exact .inr (.inr (.inr (.inr (List.mem_of_mem_head? hb))))
    · exact .inr (.inr (.inr (.inr hb)))
  · have hsub := h.filter_sublist unmade_isPlaced hs fun _ => rfl
    exact (List.mem_filter.1 (hsub.subset (List.mem_filter.2 ⟨hb, ht⟩))).1

/-- Nothing but line ends is copied. -/
theorem Rewrite.subperm_single (h : Rewrite config stage as bs) :
    (bs.filter Token.isSingle).Subperm (as.filter Token.isSingle) := by
  by_cases hs : stage = .restrictedSetters
  · subst hs
    obtain ⟨pre, modifier, taken, line, after, rfl, rfl, -, ha⟩ := h.exists_of_restrictedSetters
    -- Without the tokens that are taken, the modifier only changes its place with the line.
    have hmove : (pre ++ (line ++ ([modifier] ++ after))).Perm
        (pre ++ ([modifier] ++ (line ++ after))) := by
      refine List.Perm.append_left pre ?_
      rw [← List.append_assoc, ← List.append_assoc]
      exact List.Perm.append_right after List.perm_append_comm
    have htake : (pre ++ ([modifier] ++ (line ++ after))).Sublist
        (pre ++ modifier :: (taken ++ (line ++ after))) :=
      (List.Sublist.refl pre).append ((List.sublist_append_right taken _).cons_cons modifier)
    have hout : (pre ++ (line ++ (setterLine config (lineHead? pre) modifier after
          ++ after))).filter Token.isSingle
        = (pre ++ (line ++ ([modifier] ++ after))).filter Token.isSingle := by
      simp only [List.filter_append, filter_isSingle_setterLine (lineHead? pre) modifier ha]
    rw [hout]
    exact (hmove.filter _).subperm.trans (htake.filter _).subperm
  · exact (h.filter_sublist unmade_isSingle hs fun _ => rfl).subperm

/-- Nothing but line ends and keywords is moved. -/
theorem Rewrite.sublist_steady (h : Rewrite config stage as bs) :
    (bs.filter Token.isSteady).Sublist (as.filter Token.isSteady) := by
  by_cases hs : stage = .restrictedSetters
  · subst hs
    obtain ⟨pre, modifier, taken, line, after, rfl, rfl, hm, ha⟩ := h.exists_of_restrictedSetters
    have htake : (pre ++ (line ++ after)).Sublist
        (pre ++ modifier :: (taken ++ (line ++ after))) :=
      (List.Sublist.refl pre).append ((List.sublist_append_right taken _).cons modifier)
    have hout : (pre ++ (line ++ (setterLine config (lineHead? pre) modifier after
          ++ after))).filter Token.isSteady
        = (pre ++ (line ++ after)).filter Token.isSteady := by
      simp only [List.filter_append, filter_isSteady_setterLine (lineHead? pre) hm ha,
        List.nil_append]
    rw [hout]
    exact htake.filter _
  · exact h.filter_sublist unmade_isSteady hs fun _ => rfl

/-! ### Runs -/

theorem mem_of_mem_applyAll (stages : List Stage) {ts : List Token}
    (ht : t ∈ Stage.applyAll config stages ts) (hp : t.isPlaced = true) : t ∈ ts :=
  Stage.applyAll_preserves (P := fun us => ∀ u ∈ us, u.isPlaced = true → u ∈ ts) stages
    (fun _ _ _ _ h ha u hu hup => ha u (h.mem_of_isPlaced hu hup) hup) ts (fun _ hu _ => hu) t ht hp

theorem subperm_single_applyAll (stages : List Stage) (ts : List Token) :
    ((Stage.applyAll config stages ts).filter Token.isSingle).Subperm
      (ts.filter Token.isSingle) :=
  Stage.applyAll_preserves
    (P := fun us => (us.filter Token.isSingle).Subperm (ts.filter Token.isSingle)) stages
    (fun _ _ _ _ h ha => h.subperm_single.trans ha) ts (List.Subperm.refl _)

theorem sublist_steady_applyAll (stages : List Stage) (ts : List Token) :
    ((Stage.applyAll config stages ts).filter Token.isSteady).Sublist
      (ts.filter Token.isSteady) :=
  Stage.applyAll_preserves
    (P := fun us => (us.filter Token.isSteady).Sublist (ts.filter Token.isSteady)) stages
    (fun _ _ _ _ h ha => h.sublist_steady.trans ha) ts (List.Sublist.refl _)

/-- From a source text on, no two tokens but line ends have the same place. -/
theorem nodup_places_applyAll {source : String} {ts : List Token} (h : tokenize source = .ok ts)
    (stages : List Stage) :
    (((Stage.applyAll config stages ts).filter Token.isSingle).map Token.pos).Nodup := by
  have hsubperm : ((Stage.applyAll config stages ts).filter Token.isSingle).Subperm
      (ts.filter Token.isSingle) := subperm_single_applyAll stages ts
  obtain ⟨us, hperm, hsub⟩ := hsubperm
  have hplaces : (ts.map Token.pos).Nodup :=
    List.pairwise_map.2 ((precedes_of_tokenize h).imp fun hab => hab.ne)
  have hus : (us.map Token.pos).Nodup := hplaces.sublist ((hsub.trans List.filter_sublist).map _)
  exact (hperm.map Token.pos).nodup_iff.1 hus

/-- **Tokens with a place come from the source.**  After a run on the tokens of a source text,
    with any configuration, every token with a place is a token of the source: its kind and its
    text are those that were read at that place.  No two of them but line ends have the same
    place.  And those that are neither line ends nor keywords stand in the order of the source, at
    places that go up. -/
theorem convertTokens_places (config : Config) {source : String} {ts : List Token}
    (h : tokenize source = .ok ts) :
    ∃ o, convertTokens config ts = .ok o ∧
      (∀ t ∈ o.tokens, t.isPlaced = true → t ∈ ts) ∧
      ((o.tokens.filter Token.isSingle).map Token.pos).Nodup ∧
      (o.tokens.filter Token.isSteady).Sublist ts ∧
      (o.tokens.filter Token.isSteady).Pairwise fun a b => a.pos.Precedes b.pos := by
  obtain ⟨report, hrun, -⟩ := convertTokens_eq_ok config ts
  have hsteady : ((Stage.applyAll config Stage.all ts).filter Token.isSteady).Sublist ts :=
    (sublist_steady_applyAll Stage.all ts).trans List.filter_sublist
  exact ⟨_, hrun, fun t ht hp => mem_of_mem_applyAll Stage.all ht hp,
    nodup_places_applyAll h Stage.all, hsteady, (precedes_of_tokenize h).sublist hsteady⟩

/-- A run that copies a line end and moves a keyword. -/
theorem convertTokens_places_moved_setter :
    ∃ ts o, tokenize "private(set) var a:A//c\nb" = .ok ts ∧
      convertTokens .default ts = .ok o ∧
      render o.tokens = "var a:A//c\n\tprivate set\nb" ∧
      (∀ t ∈ o.tokens, t.isPlaced = true → t ∈ ts) ∧
      ((o.tokens.filter Token.isSingle).map Token.pos).Nodup ∧
      (o.tokens.filter Token.isSteady).Pairwise fun a b => a.pos.Precedes b.pos := by
  have heval : ((tokenize "private(set) var a:A//c\nb").toOption.bind fun ts =>
      (convertTokens .default ts).toOption.map fun o => render o.tokens)
        = some "var a:A//c\n\tprivate set\nb" := by
    cbv
  obtain ⟨ts, hts, hvalue⟩ := Option.bind_eq_some_iff.1 heval
  obtain ⟨o, ho, hrender⟩ := Option.map_eq_some_iff.1 hvalue
  obtain ⟨o', ho', hmem, hnodup, -, hpairs⟩ :=
    convertTokens_places .default (eq_ok_of_toOption hts)
  obtain rfl : o' = o := Except.ok.inj (ho'.symm.trans (eq_ok_of_toOption ho))
  exact ⟨ts, o', eq_ok_of_toOption hts, ho', hrender, hmem, hnodup, hpairs⟩

end Kotlinize
