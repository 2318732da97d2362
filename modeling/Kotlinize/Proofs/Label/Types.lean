import Kotlinize.Proofs.Label.Parameters
import Kotlinize.Proofs.Origin.Places
import Kotlinize.Proofs.ScopeBalance

namespace Kotlinize

/-!
# The types of parameters

The pass over labels cuts a parameter list at its commas.  It counts the brackets of the three
pairs, but not the marks around the arguments of a generic type.  So it also cuts a type at the
commas between such arguments, and two names behind one of these look like a parameter with a
label.

* `TypeScope`, `typeScopes` — what is open in a type, generic arguments included.
* `TypedParameter`, `TypedFunction` — a text with one function, whose parameters have types.
* `splitParameters_join` — the pieces of a list that is cut at one of its commas.
* `HoldsLabel` — an argument of a generic type looks like a parameter with a label.
* `keepsTypes_dropLabels_iff` — the pass keeps the types exactly if none of them holds such an
  argument.
-/

variable {ts as bs rest : List Token} {t comma : Token}

/-! ### Types -/

/-- What can be open in a type. -/
inductive TypeScope where
  /-- A bracket of one of the three pairs. -/
  | bracket (b : Bracket)
  /-- The arguments of a generic type. -/
  | arguments
deriving DecidableEq, Repr

/-- The bracket that is open, if it is one of the three pairs. -/
def TypeScope.bracket? : TypeScope → Option Bracket
  | bracket b => some b
  | arguments => none

/-- What is open behind a token, the innermost first, where `scopes` are open in front of it.
    There is none if the token closes anything but the innermost. -/
def typeScopesAfter (scopes : List TypeScope) (t : Token) : Option (List TypeScope) :=
  if t.is .symbol "<" then some (.arguments :: scopes)
  else if t.is .symbol ">" then
    match scopes with
    | .arguments :: outer => some outer
    | _ => none
  else
    match t.kind with
    | .startOfScope => (Bracket.ofOpener? t.text).map (.bracket · :: scopes)
    | .endOfScope =>
      match scopes with
      | .bracket b :: outer => if t.text = b.closer then some outer else none
      | _ => none
    | _ => some scopes

/-- What is open behind a text, where `scopes` are open in front of it. -/
def typeScopes (scopes : List TypeScope) (ts : List Token) : Option (List TypeScope) :=
  ts.foldlM typeScopesAfter scopes

@[simp] theorem typeScopes_cons (scopes : List TypeScope) (t : Token) (ts : List Token) :
    typeScopes scopes (t :: ts) = (typeScopesAfter scopes t).bind (typeScopes · ts) :=
  List.foldlM_cons

@[simp] theorem typeScopes_append (scopes : List TypeScope) (as bs : List Token) :
    typeScopes scopes (as ++ bs) = (typeScopes scopes as).bind (typeScopes · bs) :=
  List.foldlM_append

/-- A type: brackets and generic arguments are closed in the reverse order of opening, and commas
    stand only inside them. -/
structure IsType (ts : List Token) : Prop where
  nested : typeScopes [] ts = some []
  commas : ∀ i < ts.length, ts[i]?.any (fun t => t.is .symbol ",") = true →
    typeScopes [] (ts.take i) ≠ some []

instance (ts : List Token) : Decidable (IsType ts) :=
  decidable_of_iff (typeScopes [] ts = some [] ∧
      ∀ i < ts.length, ts[i]?.any (fun t => t.is .symbol ",") = true →
        typeScopes [] (ts.take i) ≠ some [])
    ⟨fun h => ⟨h.1, h.2⟩, fun h => ⟨h.nested, h.commas⟩⟩

/-- The marks around generic arguments are no brackets of the three pairs. -/
theorem scopesAfter_of_typeScopesAfter {scopes scopes' : List TypeScope}
    (h : typeScopesAfter scopes t = some scopes') :
    scopesAfter (scopes.filterMap TypeScope.bracket?) t
      = some (scopes'.filterMap TypeScope.bracket?) := by
  unfold typeScopesAfter at h
  split at h
  · rename_i hmark
    obtain rfl := Option.some.inj h
    exact scopesAfter_of_scopeStep (scopeStep_of_is hmark (by decide) (by decide))
  · split at h
    · rename_i hmark
      split at h
      · obtain rfl := Option.some.inj h
        exact scopesAfter_of_scopeStep (scopeStep_of_is hmark (by decide) (by decide))
      · cases h
    · split at h
      · rename_i hkind
        obtain ⟨b, hb, rfl⟩ := Option.map_eq_some_iff.1 h
        exact scopesAfter_of_opens (Token.is_iff.2 ⟨hkind, Bracket.ofOpener?_eq_some_iff.1 hb⟩)
      · rename_i hkind
        split at h
        · rename_i b outer
          obtain ⟨htext, hsome⟩ := Option.ite_none_right_eq_some.1 h
          obtain rfl := Option.some.inj hsome
          exact scopesAfter_of_closes (Token.is_iff.2 ⟨hkind, htext⟩)
        · cases h
      · rename_i ho hc
        obtain rfl := Option.some.inj h
        exact scopesAfter_of_scopeStep (scopeStep_eq_zero ho hc)

/-- **The brackets of the three pairs that are open in a type** are those that are open if the
    generic arguments do not count. -/
theorem openScopes_of_typeScopes {scopes scopes' : List TypeScope}
    (h : typeScopes scopes ts = some scopes') :
    openScopes (scopes.filterMap TypeScope.bracket?) ts
      = some (scopes'.filterMap TypeScope.bracket?) := by
  induction ts generalizing scopes with
  | nil =>
    obtain rfl : scopes = scopes' := Option.some.inj h
    rfl
  | cons t ts ih =>
    rw [typeScopes_cons, Option.bind_eq_some_iff] at h
    obtain ⟨between, ht, hts⟩ := h
    rw [openScopes_cons, scopesAfter_of_typeScopesAfter ht, Option.bind_some]
    exact ih hts

theorem IsType.nested_brackets (h : IsType ts) : Nested ts := openScopes_of_typeScopes h.nested

/-! ### Parameters with types -/

/-- Whether a text has, trivia apart, one name or two. -/
def isNames (ts : List Token) : Bool :=
  match ts.filter fun t => !t.isTrivia with
  | [name] => isLabel name
  | [label, name] => isLabel label && isLabel name
  | _ => false

/-- A parameter as it is declared: a name, perhaps with a label in front, a colon and a type. -/
structure TypedParameter where
  names : List Token
  colon : Token
  type : List Token
  isNames_names : isNames names = true := by decide
  isColon_colon : isColon colon = true := by decide
  isType_type : IsType type := by decide

namespace TypedParameter

/-- The names and the colon. -/
def front (p : TypedParameter) : List Token := p.names ++ [p.colon]

/-- The tokens as they stand in the text. -/
def whole (p : TypedParameter) : List Token := p.front ++ p.type

/-- A list of such parameters. -/
def list (first : TypedParameter) (later : List (Token × TypedParameter)) : Parameters :=
  ⟨first.whole, later.map fun p => (p.1, p.2.whole)⟩

end TypedParameter

/-- A text with one function, whose parameters have types. -/
structure TypedFunction where
  pre : List Token
  keyword : Token
  head : List Token
  opener : Token
  first : TypedParameter
  later : List (Token × TypedParameter)
  closer : Token
  post : List Token
  isFunctionKeyword_keyword : isFunctionKeyword keyword = true := by decide
  opensListOrBody_head : ∀ t ∈ head, opensListOrBody t = false := by decide
  opens_opener : Bracket.round.opens opener = true := by decide
  isComma_later : ∀ p ∈ later, p.1.is .symbol "," = true := by decide
  closes_closer : Bracket.round.closes closer = true := by decide
  isFunctionKeyword_others :
    ∀ t ∈ pre ++ (head ++ ((TypedParameter.list first later).whole ++ post)),
      isFunctionKeyword t = false := by decide

namespace TypedFunction

/-- The parameters of the function. -/
def parameters (f : TypedFunction) : List TypedParameter := f.first :: f.later.map Prod.snd

/-- The parameters as they stand in the text. -/
def list (f : TypedFunction) : Parameters := TypedParameter.list f.first f.later

/-- The tokens as they stand in the text. -/
def whole (f : TypedFunction) : List Token :=
  f.pre ++ f.keyword :: (f.head ++ f.opener :: (f.list.whole ++ f.closer :: f.post))

/-- All that carries syntax in the types of the parameters is left in a text. -/
def KeepsTypes (f : TypedFunction) (ts : List Token) : Prop :=
  ∀ p ∈ f.parameters, ∀ t ∈ p.type, t.isTrivia = false → t ∈ ts

end TypedFunction

/-- An argument of a generic type looks like a parameter with a label: a label and a name follow
    a comma where no bracket of the three pairs is open. -/
def HoldsLabel (type : List Token) : Prop :=
  ∃ i < type.length, type[i]?.any (fun t => t.is .symbol ",") = true ∧
    (typeScopes [] (type.take i)).any (fun scopes => scopes.all (· == .arguments)) = true ∧
    (labelIndex? (type.drop (i + 1))).isSome = true

instance (type : List Token) : Decidable (HoldsLabel type) :=
  inferInstanceAs (Decidable (∃ i < type.length, _ ∧ _ ∧ _))

/-! ### Labels -/

/-- Whether a label and a name come first of what carries syntax. -/
theorem isSome_labelIndex? (ts : List Token) :
    (labelIndex? ts).isSome = (unlabelled? ts).isSome := by
  have hcount := congrArg Edited.count (unlabelled_eq ts)
  rw [unlabelled] at hcount
  cases hu : unlabelled? ts <;> cases hl : labelIndex? ts <;> simp [hu, hl] at hcount ⊢

theorem withoutLabel_eq (ts : List Token) : withoutLabel ts = (unlabelled ts).tokens :=
  (congrArg Edited.tokens (unlabelled_eq ts)).symm

/-- Two of the tokens in front carry syntax: the label is one of them. -/
theorem mem_withoutLabel_append (hfront : 2 ≤ (as.countP fun t => !t.isTrivia)) (h : t ∈ rest) :
    t ∈ withoutLabel (as ++ rest) := by
  rw [withoutLabel_eq, unlabelled]
  cases hu : unlabelled? (as ++ rest) with
  | none => exact List.mem_append_right as h
  | some us =>
    obtain ⟨trivia, label, spacing, behind, heq, rfl, htrivia, -, hspacing, -⟩ :=
      unlabelled?_eq_some hu
    -- What is taken away, and what stands in front of it, has only the label that carries syntax.
    have hcount : (trivia ++ label :: spacing).countP (fun t => !t.isTrivia) ≤ 1 := by
      have h₁ : trivia.countP (fun t => !t.isTrivia) = 0 :=
        List.countP_eq_zero.2 fun u hu => by simp [htrivia u hu]
      have h₂ : spacing.countP (fun t => !t.isTrivia) = 0 :=
        List.countP_eq_zero.2 fun u hu => by simp [Token.isTrivia_of_isSpacing (hspacing u hu)]
      rw [List.countP_append, List.countP_cons, h₁, h₂]
      split <;> omega
    rw [show trivia ++ label :: (spacing ++ behind) = (trivia ++ label :: spacing) ++ behind by
      simp] at heq
    obtain ⟨more, hmore, -⟩ | ⟨more, -, rfl⟩ := List.append_eq_append_iff.1 heq
    · rw [hmore, List.countP_append] at hcount
      omega
    · exact List.mem_append_right trivia (List.mem_append_right more h)

/-- A label that is taken away is gone from a text without repeats. -/
theorem exists_not_mem_withoutLabel (hnodup : ts.Nodup) (h : (labelIndex? ts).isSome = true) :
    ∃ t ∈ ts, t.isTrivia = false ∧ t ∉ withoutLabel ts := by
  rw [isSome_labelIndex?] at h
  obtain ⟨us, hus⟩ := Option.isSome_iff_exists.1 h
  obtain ⟨trivia, label, spacing, rest, rfl, rfl, -, hlabel, -, -⟩ := unlabelled?_eq_some hus
  refine ⟨label, by simp, isTrivia_of_isLabel hlabel, ?_⟩
  rw [withoutLabel_eq, unlabelled, hus]
  rw [List.nodup_append] at hnodup
  obtain ⟨-, hbehind, hdisjoint⟩ := hnodup
  intro hmem
  rcases List.mem_append.1 hmem with hmem | hmem
  · exact hdisjoint label hmem label List.mem_cons_self rfl
  · exact (List.nodup_cons.1 hbehind).1 (List.mem_append_right spacing hmem)

/-- A comma ends the search for a label and a name. -/
theorem isSome_labelIndex?_append_comma (hc : comma.is .symbol "," = true) (rest : List Token) :
    (labelIndex? (ts ++ comma :: rest)).isSome = (labelIndex? ts).isSome := by
  have htrivia : comma.isTrivia = false :=
    isTrivia_of_is hc (by decide) (by decide) (by decide)
  have hkind := (Token.is_iff.1 hc).1
  have hlabel : isLabel comma = false := by
    simp [isLabel, Token.isIdentifier, Token.isKeyword, hkind]
  have hname : comma.isIdentifier = false := by simp [Token.isIdentifier, hkind]
  have hcut : ∀ us, significant (us ++ comma :: rest) = significant us ++ comma :: rest := by
    intro us
    induction us with
    | nil => exact List.dropWhile_cons_of_neg (by simp [htrivia])
    | cons u us ih =>
      unfold significant at ih ⊢
      cases hu : u.isTrivia <;> simp [hu, ih]
  rw [isSome_labelIndex?, isSome_labelIndex?, unlabelled?, unlabelled?, hcut]
  cases hs : significant ts with
  | nil => simp [hlabel]
  | cons label us =>
    simp only [List.cons_append, hcut]
    cases hus : significant us with
    | nil => simp [hname]
    | cons name us =>
      rw [List.cons_append, List.head?_cons, List.head?_cons, Bool.eq_iff_iff,
        Option.isSome_ite, Option.isSome_ite]

/-! ### The pieces of a list -/

/-- The parameters of two lists, with a comma between the lists. -/
def Parameters.join (ps : Parameters) (comma : Token) (qs : Parameters) : Parameters :=
  ⟨ps.first, ps.later ++ (comma, qs.first) :: qs.later⟩

theorem Parameters.whole_mk_cons (first : List Token) (comma : Token) (parameter : List Token)
    (later : List (Token × List Token)) :
    (Parameters.mk first ((comma, parameter) :: later)).whole
      = first ++ comma :: (Parameters.mk parameter later).whole := by
  simp [Parameters.whole]

/-- A list is cut at each of its commas outside the brackets. -/
theorem splitParameters_join {scopes : List Bracket} (h : openScopes scopes as = some [])
    (hc : comma.is .symbol "," = true) (rest : List Token) :
    splitParameters scopes.length (as ++ comma :: rest)
      = (splitParameters scopes.length as).join comma (splitParameters 0 rest) := by
  induction as generalizing scopes with
  | nil =>
    obtain rfl : scopes = [] := Option.some.inj h
    simp [splitParameters, hc, Parameters.join]
  | cons t as ih =>
    rw [openScopes_cons, Option.bind_eq_some_iff] at h
    obtain ⟨between, ht, has⟩ := h
    have hih := ih has
    rw [List.cons_append, splitParameters, splitParameters]
    by_cases hcut : (scopes.length == 0 && t.is .symbol ",") = true
    · have hbetween : between.length = 0 := by
        rw [Bool.and_eq_true, beq_iff_eq] at hcut
        have hstep : scopesAfter scopes t = some scopes :=
          scopesAfter_of_scopeStep (scopeStep_of_is hcut.2 (by decide) (by decide))
        obtain rfl := Option.some.inj (hstep.symm.trans ht)
        exact hcut.1
      rw [hbetween] at hih
      simp only [hcut, if_true, hih, Parameters.join, List.cons_append]
    · rw [if_neg hcut, if_neg hcut, depthFrom_length ht, hih]
      rfl

/-- The pieces of each parameter are pieces of the list. -/
theorem of_mem_splitParameters_whole {ps : Parameters} {p : List Token}
    (hcommas : ∀ q ∈ ps.later, q.1.is .symbol "," = true)
    (hps : ∀ q ∈ ps.toList, Nested q) (hp : p ∈ ps.toList) :
    (splitParameters 0 p).first ∈ (splitParameters 0 ps.whole).toList ∧
      ∀ q ∈ (splitParameters 0 p).later, q ∈ (splitParameters 0 ps.whole).later := by
  obtain ⟨first, later⟩ := ps
  induction later generalizing first with
  | nil =>
    obtain rfl : p = first := by simpa [Parameters.toList] using hp
    simp [Parameters.whole, Parameters.toList]
  | cons q later ih =>
    obtain ⟨comma, parameter⟩ := q
    rw [List.forall_mem_cons] at hcommas
    have hjoin := splitParameters_join (hps first List.mem_cons_self) hcommas.1
      (Parameters.mk parameter later).whole
    rw [List.length_nil] at hjoin
    rw [Parameters.whole_mk_cons, hjoin]
    rcases List.mem_cons.1 hp with rfl | hp
    · simp +contextual [Parameters.join, Parameters.toList]
    · have hlater := ih parameter hcommas.2 (fun q hq => hps q (List.mem_cons_of_mem _ hq)) hp
      constructor
      · have := hlater.1
        simp only [Parameters.toList, Parameters.join, List.map_append, List.map_cons,
          List.mem_cons, List.mem_append] at this ⊢
        tauto
      · intro q hq
        exact List.mem_append_right _ (List.mem_cons_of_mem _ (hlater.2 q hq))

/-- The first piece of a list shows whether a label and a name come first in the list. -/
theorem isSome_labelIndex?_first (ts : List Token) (depth : Nat) :
    (labelIndex? (splitParameters depth ts).first).isSome = (labelIndex? ts).isSome := by
  have hwhole := whole_splitParameters depth ts
  have hcommas := fun p (hp : p ∈ (splitParameters depth ts).later) => isComma_of_mem_later hp
  generalize splitParameters depth ts = ps at hwhole hcommas ⊢
  obtain ⟨first, later⟩ := ps
  cases later with
  | nil => rw [← hwhole, Parameters.whole, List.flatMap_nil, List.append_nil]
  | cons p later =>
    have hcomma : p.1.is .symbol "," = true := hcommas p List.mem_cons_self
    rw [← hwhole, Parameters.whole, List.flatMap_cons, List.cons_append,
      isSome_labelIndex?_append_comma hcomma]

/-- A later piece of a list starts with a label and a name if these stand behind a comma outside
    the brackets. -/
theorem exists_labelled_later_iff {scopes : List Bracket} (h : openScopes scopes ts = some []) :
    (∃ q ∈ (splitParameters scopes.length ts).later, (labelIndex? q.2).isSome = true)
      ↔ ∃ i < ts.length, ts[i]?.any (fun t => t.is .symbol ",") = true ∧
          openScopes scopes (ts.take i) = some [] ∧
          (labelIndex? (ts.drop (i + 1))).isSome = true := by
  induction ts generalizing scopes with
  | nil => simp [splitParameters]
  | cons t ts ih =>
    rw [openScopes_cons, Option.bind_eq_some_iff] at h
    obtain ⟨between, ht, hts⟩ := h
    -- An index of the list is that of its head, or one of its tail.
    have hsucc : (∃ i < ts.length, (t :: ts)[i + 1]?.any (fun t => t.is .symbol ",") = true ∧
          openScopes scopes ((t :: ts).take (i + 1)) = some [] ∧
          (labelIndex? ((t :: ts).drop (i + 1 + 1))).isSome = true)
        ↔ ∃ q ∈ (splitParameters between.length ts).later, (labelIndex? q.2).isSome = true := by
      rw [ih hts]
      simp [ht]
    rw [List.length_cons, Nat.exists_lt_succ_left, hsucc, splitParameters]
    by_cases hcut : (scopes.length == 0 && t.is .symbol ",") = true
    · rw [if_pos hcut]
      rw [Bool.and_eq_true, beq_iff_eq, List.length_eq_zero_iff] at hcut
      obtain ⟨rfl, hcomma⟩ := hcut
      have hstep : scopesAfter [] t = some [] :=
        scopesAfter_of_scopeStep (scopeStep_of_is hcomma (by decide) (by decide))
      obtain rfl := Option.some.inj (hstep.symm.trans ht)
      simp [hcomma, isSome_labelIndex?_first]
    · rw [if_neg hcut, depthFrom_length ht]
      have hhead : ¬ (t.is .symbol "," = true ∧ scopes = []) := by
        rintro ⟨hcomma, rfl⟩
        simp [hcomma] at hcut
      simp only [List.getElem?_cons_zero, Option.any_some, List.take_zero, openScopes_nil,
        Option.some.injEq, Parameters.cons]
      refine (or_iff_right ?_).symm
      rintro ⟨hcomma, hnil, -⟩
      exact hhead ⟨hcomma, hnil⟩

/-- The brackets of the three pairs that are open where nothing but generic arguments is. -/
theorem filterMap_bracket?_eq_nil_iff {scopes : List TypeScope} :
    scopes.filterMap TypeScope.bracket? = [] ↔ scopes.all (· == .arguments) = true := by
  rw [List.filterMap_eq_nil_iff, List.all_eq_true]
  refine forall₂_congr fun scope _ => ?_
  cases scope <;> simp [TypeScope.bracket?]

/-- **A type is cut in front of a label** if one of its generic arguments starts with a label and
    a name. -/
theorem holdsLabel_iff (h : typeScopes [] ts = some []) :
    HoldsLabel ts ↔ ∃ q ∈ (splitParameters 0 ts).later, (labelIndex? q.2).isSome = true := by
  have hopen : openScopes [] ts = some [] := openScopes_of_typeScopes h
  rw [← List.length_nil (α := Bracket), exists_labelled_later_iff hopen, HoldsLabel]
  refine exists_congr fun i => and_congr_right fun _ => and_congr_right fun _ =>
    and_congr_left fun _ => ?_
  -- What is open in front of the comma can be read, for it can be read to the end.
  rw [← List.take_append_drop i ts, typeScopes_append, Option.bind_eq_some_iff] at h
  obtain ⟨scopes, htake, -⟩ := h
  have hbrackets : openScopes [] (ts.take i) = some (scopes.filterMap TypeScope.bracket?) :=
    openScopes_of_typeScopes htake
  rw [htake, hbrackets, Option.any_some, Option.some.injEq, filterMap_bracket?_eq_nil_iff]

/-! ### The pass -/

/-- An edited parameter stands in the edited list. -/
theorem mem_whole_map {f : List Token → List Token} {ps : Parameters} {p : List Token}
    (hp : p ∈ ps.toList) (ht : t ∈ f p) : t ∈ (ps.map f).whole := by
  rw [Parameters.whole, Parameters.map, List.mem_append]
  rcases List.mem_cons.1 hp with rfl | hp
  · exact .inl ht
  · obtain ⟨q, hq, rfl⟩ := List.mem_map.1 hp
    right
    simp only [List.flatMap_map, List.mem_flatMap]
    exact ⟨q, hq, List.mem_cons_of_mem _ ht⟩

theorem sublist_whole {ps : Parameters} {p : List Token} (hp : p ∈ ps.toList) :
    p.Sublist ps.whole := by
  rw [Parameters.whole]
  rcases List.mem_cons.1 hp with rfl | hp
  · exact List.sublist_append_left _ _
  · obtain ⟨q, hq, rfl⟩ := List.mem_map.1 hp
    refine .trans ?_ (List.sublist_append_right _ _)
    exact (List.sublist_cons_self q.1 q.2).trans
      (List.sublist_flatten_of_mem (List.mem_map_of_mem hq))

/-- In a text without repeats, what an edit takes from one parameter is gone from the list. -/
theorem not_mem_whole_map {f : List Token → List Token} {ps : Parameters} {p : List Token}
    (hf : ∀ p, (f p).Sublist p) (hnodup : ps.whole.Nodup) (hp : p ∈ ps.toList) (ht : t ∈ p)
    (hlost : t ∉ f p) : t ∉ (ps.map f).whole := by
  obtain ⟨first, later⟩ := ps
  induction later generalizing first with
  | nil =>
    obtain rfl : p = first := by simpa [Parameters.toList] using hp
    simpa [Parameters.map, Parameters.whole] using hlost
  | cons q later ih =>
    obtain ⟨comma, parameter⟩ := q
    have hmap : ((Parameters.mk first ((comma, parameter) :: later)).map f).whole
        = f first ++ comma :: ((Parameters.mk parameter later).map f).whole :=
      Parameters.whole_mk_cons _ _ _ _
    rw [Parameters.whole_mk_cons, List.nodup_append, List.nodup_cons] at hnodup
    obtain ⟨hfirst, ⟨hcomma, hrest⟩, hapart⟩ := hnodup
    rw [hmap, List.mem_append, List.mem_cons, not_or, not_or]
    rcases List.mem_cons.1 hp with rfl | hp
    · refine ⟨hlost, ?_, fun hmem => ?_⟩
      · rintro rfl
        exact hapart t ht t List.mem_cons_self rfl
      · exact hapart t ht t (List.mem_cons_of_mem _ (mem_of_mem_whole_map hf hmem)) rfl
    · have hsublist : p.Sublist (Parameters.mk parameter later).whole := sublist_whole hp
      have hmem : t ∈ (Parameters.mk parameter later).whole := hsublist.mem ht
      refine ⟨fun hfirst => ?_, ?_, ih parameter hrest hp⟩
      · exact hapart t ((hf first).mem hfirst) t (List.mem_cons_of_mem _ hmem) rfl
      · rintro rfl
        exact hcomma hmem

namespace TypedParameter

/-- The names and the colon hold no bracket and no comma. -/
theorem of_mem_front (p : TypedParameter) (h : t ∈ p.front) :
    t.scopeStep = 0 ∧ t.is .symbol "," = false := by
  have hlabels : ∀ u ∈ p.names, u.isTrivia = false → isLabel u = true := by
    intro u hu hcode
    have hnames := p.isNames_names
    have hmem : u ∈ p.names.filter fun t => !t.isTrivia :=
      List.mem_filter.2 ⟨hu, by rw [hcode]; rfl⟩
    unfold isNames at hnames
    split at hnames
    · rename_i name heq
      rw [heq, List.mem_singleton] at hmem
      rwa [hmem]
    · rename_i label name heq
      rw [Bool.and_eq_true] at hnames
      rw [heq, List.mem_pair] at hmem
      rcases hmem with rfl | rfl
      · exact hnames.1
      · exact hnames.2
    · cases hnames
  have hcomma : ∀ u : Token, u.kind ≠ .symbol → u.is .symbol "," = false := by
    intro u hu
    simp [Token.is, hu]
  rcases List.mem_append.1 h with h | h
  · cases hcode : t.isTrivia with
    | true =>
      refine ⟨scopeStep_of_isTrivia hcode, hcomma t fun hkind => ?_⟩
      simp [Token.isTrivia, Token.isSpacing, hkind] at hcode
    | false =>
      have hlabel := hlabels t h hcode
      refine ⟨scopeStep_of_isLabel hlabel, hcomma t fun hkind => ?_⟩
      simp [isLabel, Token.isIdentifier, Token.isKeyword, hkind] at hlabel
  · obtain rfl := List.mem_singleton.1 h
    have hcolon := p.isColon_colon
    refine ⟨scopeStep_of_is hcolon (by decide) (by decide), ?_⟩
    rw [isColon, Token.is_iff] at hcolon
    simp [Token.is, hcolon.2]

/-- Names and colon are two tokens that carry syntax, or three. -/
theorem two_le_countP_front (p : TypedParameter) :
    2 ≤ p.front.countP fun t => !t.isTrivia := by
  have hcolon : p.colon.isTrivia = false :=
    isTrivia_of_is p.isColon_colon (by decide) (by decide) (by decide)
  have hnames := p.isNames_names
  rw [front, List.countP_append, List.countP_singleton, hcolon, List.countP_eq_length_filter]
  unfold isNames at hnames
  split at hnames
  · rename_i heq
    simp [heq]
  · rename_i heq
    simp [heq]
  · cases hnames

theorem nested_whole (p : TypedParameter) : Nested p.whole :=
  Nested.append (openScopes_of_scopeStep fun _ ht => (p.of_mem_front ht).1)
    p.isType_type.nested_brackets

/-- The pieces of a parameter are those of its type, the first of them behind the colon. -/
theorem splitParameters_whole (p : TypedParameter) :
    splitParameters 0 p.whole = (splitParameters 0 p.type).prepend p.front := by
  have hnested : Nested p.front := openScopes_of_scopeStep fun _ ht => (p.of_mem_front ht).1
  refine splitParameters_append hnested (fun i hi hcomma => ?_) p.type
  rw [List.getElem?_eq_getElem hi, Option.any_some,
    (p.of_mem_front (List.getElem_mem hi)).2] at hcomma
  cases hcomma

end TypedParameter

namespace TypedFunction

theorem toList_list (f : TypedFunction) :
    f.list.toList = f.parameters.map TypedParameter.whole := by
  simp [list, TypedParameter.list, Parameters.toList, parameters]

theorem mem_toList {f : TypedFunction} {p : TypedParameter} (h : p ∈ f.parameters) :
    p.whole ∈ f.list.toList := by
  rw [toList_list]
  exact List.mem_map_of_mem h

theorem nested_of_mem_list (f : TypedFunction) : ∀ p ∈ f.list.toList, Nested p := by
  intro p hp
  rw [toList_list] at hp
  obtain ⟨q, -, rfl⟩ := List.mem_map.1 hp
  exact q.nested_whole

theorem isComma_of_mem_list (f : TypedFunction) :
    ∀ p ∈ f.list.later, p.1.is .symbol "," = true := by
  intro p hp
  obtain ⟨q, hq, rfl⟩ := List.mem_map.1 hp
  exact f.isComma_later q hq

theorem list_sublist (f : TypedFunction) : f.list.whole.Sublist f.whole := by
  rw [whole]
  refine .trans ?_ (List.sublist_append_right _ _)
  refine .cons _ (.trans ?_ (List.sublist_append_right _ _))
  exact .cons _ (List.sublist_append_left _ _)

/-- The pass takes the label of each piece of the parameter list. -/
theorem tokens_dropLabels (f : TypedFunction) :
    (dropLabels f.whole).tokens
      = f.pre ++ f.keyword :: (f.head ++ f.opener ::
          (((splitParameters 0 f.list.whole).map withoutLabel).whole ++ f.closer :: f.post)) := by
  have hothers := f.isFunctionKeyword_others
  simp only [List.forall_mem_append] at hothers
  obtain ⟨hpre, hhead, hwhole, hpost⟩ := hothers
  have hlist := parameterList?_whole f.opensListOrBody_head f.opens_opener f.closes_closer
    (Nested.whole f.isComma_of_mem_list f.nested_of_mem_list) f.post
  -- No function is left behind the keyword, so the pass ends there.
  have hrest : ∀ t ∈ f.head ++ f.opener ::
      (((splitParameters 0 f.list.whole).map withoutLabel).whole ++ f.closer :: f.post),
      isFunctionKeyword t = false := by
    simp only [List.forall_mem_append, List.forall_mem_cons]
    refine ⟨hhead, ?_, fun t ht => ?_, ?_, hpost⟩
    · simp [isFunctionKeyword, Token.is, (Token.is_iff.1 f.opens_opener).1]
    · have hmem := mem_of_mem_whole_map withoutLabel_sublist ht
      rw [whole_splitParameters] at hmem
      exact hwhole t hmem
    · simp [isFunctionKeyword, Token.is, (Token.is_iff.1 f.closes_closer).1]
  rw [whole, dropLabels_append hpre, dropLabels, if_pos f.isFunctionKeyword_keyword,
    unlabelledList, hlist]
  dsimp only
  rw [Parameters.unlabelled_eq, dropLabels_eq_self hrest]
  rfl

/-- What is left of the pieces is left of the text. -/
theorem mem_dropLabels (f : TypedFunction)
    (h : t ∈ ((splitParameters 0 f.list.whole).map withoutLabel).whole) :
    t ∈ (dropLabels f.whole).tokens := by
  rw [tokens_dropLabels]
  simp [h]

/-- What the pass takes from a piece of the parameter list is gone from the text. -/
theorem not_mem_dropLabels (f : TypedFunction) (hnodup : f.whole.Nodup) {piece : List Token}
    (hpiece : piece ∈ (splitParameters 0 f.list.whole).toList) (ht : t ∈ piece)
    (hlost : t ∉ withoutLabel piece) : t ∉ (dropLabels f.whole).tokens := by
  have hin : t ∈ f.list.whole := by
    have hmem := (sublist_whole hpiece).mem ht
    rwa [whole_splitParameters] at hmem
  -- Outside the list the text is as it was, and has no token of the list.
  have houter : f.whole = (f.pre ++ f.keyword :: (f.head ++ [f.opener]))
      ++ (f.list.whole ++ f.closer :: f.post) := by
    simp [whole]
  rw [houter, List.nodup_append] at hnodup
  obtain ⟨-, hbehind, hfront⟩ := hnodup
  obtain ⟨hlist, -, hback⟩ := List.nodup_append.1 hbehind
  have hkept : t ∉ ((splitParameters 0 f.list.whole).map withoutLabel).whole := by
    refine not_mem_whole_map withoutLabel_sublist ?_ hpiece ht hlost
    rwa [whole_splitParameters]
  have hnotFront : t ∉ f.pre ++ f.keyword :: (f.head ++ [f.opener]) := fun hmem =>
    hfront t hmem t (List.mem_append_left _ hin) rfl
  have hnotBack : t ∉ f.closer :: f.post := fun hmem => hback t hin t hmem rfl
  rw [tokens_dropLabels]
  simp only [List.mem_append, List.mem_cons, List.not_mem_nil, or_false, not_or]
    at hkept hnotFront hnotBack ⊢
  exact ⟨hnotFront.1, hnotFront.2.1, hnotFront.2.2.1, hnotFront.2.2.2, hkept, hnotBack⟩

/-- **Which types the pass keeps.**  In a source text with one function, whose parameters have
    types, nothing that carries syntax is taken from a type if and only if no type holds a comma
    between generic arguments that a label and a name follow. -/
theorem keepsTypes_dropLabels_iff (f : TypedFunction) {source : String}
    (h : tokenize source = .ok f.whole) :
    f.KeepsTypes (dropLabels f.whole).tokens ↔ ∀ p ∈ f.parameters, ¬ HoldsLabel p.type := by
  have hnodup : f.whole.Nodup := 
    (precedes_of_tokenize h).imp fun hpos heq => hpos.ne (congrArg Token.pos heq)
  have hpieces : ∀ p ∈ f.parameters, _ := fun p hp =>
    of_mem_splitParameters_whole f.isComma_of_mem_list f.nested_of_mem_list (mem_toList hp)
  simp only [TypedParameter.splitParameters_whole] at hpieces
  constructor
  · intro hkeeps p hp hlabel
    obtain ⟨q, hq, hlabelled⟩ := (holdsLabel_iff p.isType_type.nested).1 hlabel
    have hpiece : q.2 ∈ (splitParameters 0 f.list.whole).toList :=
      List.mem_cons_of_mem _ (List.mem_map_of_mem ((hpieces p hp).2 q hq))
    have htype : q.2.Sublist p.type := by
      rw [← whole_splitParameters 0 p.type]
      exact sublist_whole (List.mem_cons_of_mem _ (List.mem_map_of_mem hq))
    have htext : p.type.Sublist f.whole :=
      ((List.sublist_append_right p.front p.type).trans (sublist_whole (mem_toList hp))).trans
        f.list_sublist
    obtain ⟨t, ht, hcode, hlost⟩ :=
      exists_not_mem_withoutLabel (hnodup.sublist (htype.trans htext)) hlabelled
    exact f.not_mem_dropLabels hnodup hpiece ht hlost (hkeeps p hp t (htype.mem ht) hcode)
  · intro hnone p hp t ht _
    refine f.mem_dropLabels ?_
    obtain ⟨hfirst, hlater⟩ := hpieces p hp
    rw [← whole_splitParameters 0 p.type, Parameters.whole, List.mem_append,
      List.mem_flatMap] at ht
    rcases ht with ht | ⟨q, hq, ht⟩
    · exact mem_whole_map hfirst (mem_withoutLabel_append p.two_le_countP_front ht)
    · have hunlabelled : withoutLabel q.2 = q.2 := by
        have hindex : ¬ (labelIndex? q.2).isSome = true := fun hlabel =>
          hnone p hp ((holdsLabel_iff p.isType_type.nested).2 ⟨q, hq, hlabel⟩)
        rw [Option.not_isSome_iff_eq_none] at hindex
        rw [withoutLabel, hindex]
      have hq' := hlater q hq
      rw [Parameters.whole, Parameters.map, List.mem_append]
      right
      simp only [List.flatMap_map, List.mem_flatMap]
      exact ⟨q, hq', by rwa [hunlabelled]⟩

end TypedFunction

/-- A function with a label, whose generic type holds a tuple with two names behind its comma. -/
def labelledTuple : TypedFunction where
  pre := []
  keyword := ⟨.keyword, "func", ⟨1, 1⟩⟩
  head := [⟨.whitespace, " ", ⟨1, 5⟩⟩, ⟨.identifier, "f", ⟨1, 6⟩⟩]
  opener := ⟨.startOfScope, "(", ⟨1, 7⟩⟩
  first :=
    { names := [⟨.keyword, "in", ⟨1, 8⟩⟩, ⟨.whitespace, " ", ⟨1, 10⟩⟩,
        ⟨.identifier, "a", ⟨1, 11⟩⟩]
      colon := ⟨.symbol, ":", ⟨1, 12⟩⟩
      type := [⟨.identifier, "D", ⟨1, 13⟩⟩, ⟨.symbol, "<", ⟨1, 14⟩⟩,
        ⟨.startOfScope, "(", ⟨1, 15⟩⟩, ⟨.identifier, "A", ⟨1, 16⟩⟩, ⟨.symbol, ",", ⟨1, 17⟩⟩,
        ⟨.identifier, "x", ⟨1, 18⟩⟩, ⟨.whitespace, " ", ⟨1, 19⟩⟩, ⟨.identifier, "B", ⟨1, 20⟩⟩,
        ⟨.endOfScope, ")", ⟨1, 21⟩⟩, ⟨.symbol, ",", ⟨1, 22⟩⟩, ⟨.identifier, "C", ⟨1, 23⟩⟩,
        ⟨.symbol, ">", ⟨1, 24⟩⟩] }
  later := []
  closer := ⟨.endOfScope, ")", ⟨1, 25⟩⟩
  post := []

theorem tokenize_labelledTuple :
    tokenize "func f(in a:D<(A,x B),C>)" = .ok labelledTuple.whole := by
  cbv

/-- The comma of a tuple does not cut a type, and a single name behind a comma is no label. -/
theorem keepsTypes_dropLabels_labelledTuple :
    tokenize "func f(in a:D<(A,x B),C>)" = .ok labelledTuple.whole ∧
      render (dropLabels labelledTuple.whole).tokens = "func f(a:D<(A,x B),C>)" ∧
      labelledTuple.KeepsTypes (dropLabels labelledTuple.whole).tokens := by
  have hrender : render (dropLabels labelledTuple.whole).tokens = "func f(a:D<(A,x B),C>)" := by
    cbv
  have hnone : ∀ p ∈ labelledTuple.parameters, ¬ HoldsLabel p.type := by
    decide
  exact ⟨tokenize_labelledTuple, hrender,
    (labelledTuple.keepsTypes_dropLabels_iff tokenize_labelledTuple).2 hnone⟩

/-- A function with a generic type, one of whose arguments is a type with a word in front. -/
def wordBeforeArgument : TypedFunction where
  pre := []
  keyword := ⟨.keyword, "func", ⟨1, 1⟩⟩
  head := [⟨.whitespace, " ", ⟨1, 5⟩⟩, ⟨.identifier, "f", ⟨1, 6⟩⟩]
  opener := ⟨.startOfScope, "(", ⟨1, 7⟩⟩
  first :=
    { names := [⟨.identifier, "a", ⟨1, 8⟩⟩]
      colon := ⟨.symbol, ":", ⟨1, 9⟩⟩
      type := [⟨.identifier, "D", ⟨1, 10⟩⟩, ⟨.symbol, "<", ⟨1, 11⟩⟩,
        ⟨.identifier, "A", ⟨1, 12⟩⟩, ⟨.symbol, ",", ⟨1, 13⟩⟩, ⟨.identifier, "any", ⟨1, 14⟩⟩,
        ⟨.whitespace, " ", ⟨1, 17⟩⟩, ⟨.identifier, "B", ⟨1, 18⟩⟩, ⟨.symbol, ">", ⟨1, 19⟩⟩] }
  later := []
  closer := ⟨.endOfScope, ")", ⟨1, 20⟩⟩
  post := []

theorem tokenize_wordBeforeArgument :
    tokenize "func f(a:D<A,any B>)" = .ok wordBeforeArgument.whole := by
  cbv

/-- **The word in front of a generic argument is lost**, for it is taken for a label. -/
theorem not_keepsTypes_word_before_argument :
    ¬ ∀ (source : String) (f : TypedFunction), tokenize source = .ok f.whole →
      f.KeepsTypes (dropLabels f.whole).tokens := by
  intro hall
  have hkept := hall _ _ tokenize_wordBeforeArgument wordBeforeArgument.first List.mem_cons_self
    ⟨.identifier, "any", ⟨1, 14⟩⟩ (by decide) (by decide)
  have hlost : (dropLabels wordBeforeArgument.whole).tokens.contains
      ⟨.identifier, "any", ⟨1, 14⟩⟩ = false := by
    cbv
  rw [List.contains_iff_mem.2 hkept] at hlost
  cases hlost

end Kotlinize
