import Kotlinize.Proofs.Indices
import Kotlinize.Token.Edit

namespace Kotlinize

/-!
# The labels of a parameter list

The pass cuts a parameter list at its commas and drops the label of each parameter.  This file
says what it does to a list whose parameters are known: each of them stands for itself, with
brackets in pairs and commas only inside those.

* `labelIndex?`, `withoutLabel` — the label of a parameter by index, and the parameter without it.
* `IsParameter` — what may stand between two commas of a list.
* `splitParameters_whole`, `parameterList?_whole` — the pass finds the list and its parameters.
* `dropLabels_eq_withoutLabel` — what the pass does to a text with one function.
-/

variable {b : Bracket} {ts as rest : List Token} {scopes scopes' : List Bracket}

/-! ### The label of a parameter -/

/-- The index of a parameter's label: its first token that carries syntax can be a label, and the
    second one is a name. -/
def labelIndex? (parameter : List Token) : Option Nat :=
  let first := skipTrivia parameter 0
  let second := skipTrivia parameter (first + 1)
  if parameter[first]?.any isLabel && parameter[second]?.any Token.isIdentifier then some first
  else none

/-- A parameter without its label, if it has one, and without the spacing right behind that. -/
def withoutLabel (parameter : List Token) : List Token :=
  match labelIndex? parameter with
  | some i => removeSpacingAt (removeAt parameter i) i
  | none => parameter

/-- The pass drops the label of a parameter and counts it. -/
theorem unlabelled_eq (parameter : List Token) :
    unlabelled parameter
      = ⟨withoutLabel parameter, if (labelIndex? parameter).isSome then 1 else 0⟩ := by
  have hsplit := leadingTrivia_append_significant parameter
  have hfirst : skipTrivia parameter 0 = (leadingTrivia parameter).length := by
    rw [skipTrivia, List.drop_zero, Nat.zero_add]
  rw [unlabelled, unlabelled?, withoutLabel, labelIndex?, hfirst]
  generalize leadingTrivia parameter = trivia at hsplit ⊢
  cases hs : significant parameter with
  | nil =>
    rw [hs, List.append_nil] at hsplit
    simp [← hsplit]
  | cons label rest =>
    rw [hs] at hsplit
    have hlabel : parameter[trivia.length]? = some label := by
      rw [← hsplit]
      simp
    have hsecond : parameter[skipTrivia parameter (trivia.length + 1)]?
        = (significant rest).head? := by
      have hdrop : parameter.drop trivia.length = label :: rest := by
        rw [← hsplit, List.drop_left]
      rw [← List.head?_drop, drop_skipTrivia, drop_succ_of_drop hdrop]
    have hremove : removeSpacingAt (removeAt parameter trivia.length) trivia.length
        = trivia ++ rest.dropWhile Token.isSpacing := by
      rw [removeAt, ← hsplit, List.eraseIdx_append_of_length_le (Nat.le_refl _), Nat.sub_self,
        List.eraseIdx_cons_zero, removeSpacingAt, List.take_left, List.drop_left]
    rw [hlabel, hsecond, Option.any_some]
    dsimp only
    by_cases hlabelled : (isLabel label && (significant rest).head?.any Token.isIdentifier) = true
    · rw [if_pos hlabelled, if_pos hlabelled]
      dsimp only
      rw [hremove]
      rfl
    · rw [if_neg hlabelled, if_neg hlabelled]
      rfl

theorem withoutLabel_sublist (parameter : List Token) :
    (withoutLabel parameter).Sublist parameter := by
  rw [withoutLabel]
  split
  · rename_i i _
    refine .trans ?_ (List.eraseIdx_sublist parameter i)
    rw [removeSpacingAt, ← removeAt]
    conv => rhs; rw [← List.take_append_drop i (removeAt parameter i)]
    exact (List.Sublist.refl _).append (List.dropWhile_sublist _)
  · exact .refl _

/-! ### Parameters in brackets -/

/-- Every comma of a text stands where a bracket is open, when `scopes` are open in front. -/
def CommasInside (scopes : List Bracket) (ts : List Token) : Prop :=
  ∀ i < ts.length, ts[i]?.any (fun t => t.is .symbol ",") = true →
    openScopes scopes (ts.take i) ≠ some []

instance (scopes : List Bracket) (ts : List Token) : Decidable (CommasInside scopes ts) :=
  inferInstanceAs (Decidable (∀ i < ts.length, _ → openScopes scopes (ts.take i) ≠ some []))

/-- What may stand between two commas of a parameter list: brackets in pairs, and commas only
    inside them. -/
structure IsParameter (ts : List Token) : Prop where
  nested : Nested ts
  commas : CommasInside [] ts

instance (ts : List Token) : Decidable (IsParameter ts) :=
  decidable_of_iff (Nested ts ∧ CommasInside [] ts) ⟨fun h => ⟨h.1, h.2⟩, fun h => ⟨h.1, h.2⟩⟩

theorem CommasInside.of_cons {t : Token} (h : CommasInside scopes (t :: ts))
    (ht : scopesAfter scopes t = some scopes') : CommasInside scopes' ts := by
  intro i hi hcomma
  have hopen := h (i + 1) (by simpa using hi) (by simpa using hcomma)
  rwa [List.take_succ_cons, openScopes_cons, ht] at hopen

theorem CommasInside.ne_nil {t : Token} (h : CommasInside scopes (t :: ts))
    (ht : t.is .symbol "," = true) : scopes ≠ [] := by
  have hopen := h 0 (by simp) (by simpa using ht)
  rintro rfl
  exact hopen rfl

/-- The depth that the searches count is the number of open brackets. -/
theorem depthFrom_length {t : Token} (h : scopesAfter scopes t = some scopes') :
    t.depthFrom scopes.length = scopes'.length := by
  obtain ⟨b, ho, rfl⟩ | ⟨b, hc, rfl⟩ | ⟨hz, rfl⟩ := scopesAfter_eq_some h
  · simp [Token.depthFrom, (Token.is_iff.1 ho).1]
  · simp [Token.depthFrom, (Token.is_iff.1 hc).1]
  · unfold Token.scopeStep at hz
    unfold Token.depthFrom
    split <;> simp_all

/-- More tokens in front of the first parameter. -/
def Parameters.prepend (as : List Token) (ps : Parameters) : Parameters :=
  { ps with first := as ++ ps.first }

/-- A list is not cut inside a parameter. -/
theorem splitParameters_append (h : openScopes scopes as = some scopes')
    (hcommas : CommasInside scopes as) (rest : List Token) :
    splitParameters scopes.length (as ++ rest)
      = (splitParameters scopes'.length rest).prepend as := by
  induction as generalizing scopes with
  | nil =>
    obtain rfl : scopes = scopes' := Option.some.inj h
    rfl
  | cons t as ih =>
    rw [openScopes_cons, Option.bind_eq_some_iff] at h
    obtain ⟨between, ht, has⟩ := h
    have hkeep : (scopes.length == 0 && t.is .symbol ",") = false := by
      rw [Bool.eq_false_iff, Ne, Bool.and_eq_true, beq_iff_eq, List.length_eq_zero_iff]
      exact fun hcut => hcommas.ne_nil hcut.2 hcut.1
    rw [List.cons_append, splitParameters, if_neg (by rw [hkeep]; exact Bool.false_ne_true),
      depthFrom_length ht, ih has (hcommas.of_cons ht)]
    rfl

/-- **The pass finds the parameters** that make up a list. -/
theorem splitParameters_whole (ps : Parameters)
    (hcommas : ∀ p ∈ ps.later, p.1.is .symbol "," = true)
    (hps : ∀ p ∈ ps.toList, IsParameter p) : splitParameters 0 ps.whole = ps := by
  obtain ⟨first, later⟩ := ps
  induction later generalizing first with
  | nil =>
    have hfirst : IsParameter first := hps first List.mem_cons_self
    have hcut := splitParameters_append hfirst.nested hfirst.commas []
    simpa [Parameters.whole, Parameters.prepend, splitParameters] using hcut
  | cons p later ih =>
    obtain ⟨comma, parameter⟩ := p
    rw [List.forall_mem_cons] at hcommas
    have hfirst : IsParameter first := hps first List.mem_cons_self
    have hlater := ih parameter hcommas.2 fun q hq => hps q (List.mem_cons_of_mem _ hq)
    have hcut := splitParameters_append hfirst.nested hfirst.commas
      (comma :: (Parameters.mk parameter later).whole)
    rw [List.length_nil, splitParameters, hcommas.1, hlater] at hcut
    simpa [Parameters.whole, Parameters.prepend] using hcut

/-! ### The parameter list -/

/-- The search for a partner passes over a run that can be read. -/
theorem enclosed?_append_of_openScopes (h : openScopes scopes as = some scopes')
    (rest : List Token) :
    b.enclosed? (scopes.count b) (as ++ rest)
      = (b.enclosed? (scopes'.count b) rest).map fun e => { e with inside := as ++ e.inside } := by
  induction as generalizing scopes with
  | nil =>
    obtain rfl : scopes = scopes' := Option.some.inj h
    exact Option.map_id'.symm
  | cons t as ih =>
    rw [openScopes_cons, Option.bind_eq_some_iff] at h
    obtain ⟨between, ht, has⟩ := h
    rw [List.cons_append, Bracket.enclosed?]
    by_cases ho : b.opens t = true
    · obtain rfl : b :: scopes = between :=
        Option.some.inj ((scopesAfter_of_opens ho).symm.trans ht)
      have hnext := ih has
      rw [List.count_cons_self] at hnext
      rw [if_pos ho, hnext, Option.map_map]
      rfl
    · rw [if_neg ho]
      by_cases hc : b.closes t = true
      · obtain rfl := eq_cons_of_closes hc ht
        rw [if_pos hc, List.count_cons_self, if_neg (Nat.succ_ne_zero _), Nat.add_sub_cancel,
          ih has, Option.map_map]
        rfl
      · -- A bracket of another pair does not count.
        have hcount : scopes.count b = between.count b := by
          obtain ⟨c, ho', rfl⟩ | ⟨c, hc', rfl⟩ | ⟨-, rfl⟩ := scopesAfter_eq_some ht
          · rw [List.count_cons_of_ne]
            rintro rfl
            exact ho ho'
          · rw [List.count_cons_of_ne]
            rintro rfl
            exact hc hc'
          · rfl
        rw [if_neg hc, hcount, ih has, Option.map_map]
        rfl

theorem Nested.append {bs : List Token} (has : Nested as) (hbs : Nested bs) :
    Nested (as ++ bs) := by
  rw [Nested, openScopes_append, has, Option.bind_some, hbs]

theorem nested_of_isComma {t : Token} (h : t.is .symbol "," = true) : Nested [t] := by
  refine openScopes_of_scopeStep fun u hu => ?_
  obtain rfl := List.mem_singleton.1 hu
  simp [Token.scopeStep, (Token.is_iff.1 h).1]

/-- A list is properly nested if each of its parameters is. -/
theorem Nested.whole {ps : Parameters} (hcommas : ∀ p ∈ ps.later, p.1.is .symbol "," = true)
    (hps : ∀ p ∈ ps.toList, Nested p) : Nested ps.whole := by
  obtain ⟨first, later⟩ := ps
  induction later generalizing first with
  | nil => simpa [Parameters.whole] using hps first List.mem_cons_self
  | cons p later ih =>
    obtain ⟨comma, parameter⟩ := p
    rw [List.forall_mem_cons] at hcommas
    have hlater := ih parameter hcommas.2 fun q hq => hps q (List.mem_cons_of_mem _ hq)
    have hnested := (hps first List.mem_cons_self).append
      ((nested_of_isComma hcommas.1).append hlater)
    simpa [Parameters.whole] using hnested

/-- Parameters with commas between them are properly nested. -/
theorem nested_whole (ps : Parameters) (hcommas : ∀ p ∈ ps.later, p.1.is .symbol "," = true)
    (hps : ∀ p ∈ ps.toList, IsParameter p) : Nested ps.whole :=
  .whole hcommas fun p hp => (hps p hp).nested

/-- **The pass finds the list**: the first parenthesis opens it, and its partner closes it. -/
theorem parameterList?_whole {opener closer : Token} {head inside : List Token}
    (hhead : ∀ t ∈ head, opensListOrBody t = false) (ho : Bracket.round.opens opener = true)
    (hc : Bracket.round.closes closer = true) (hinside : Nested inside) (post : List Token) :
    parameterList? (head ++ opener :: (inside ++ closer :: post))
      = some ⟨head, opener, ⟨inside, closer, post⟩⟩ := by
  have hskip : ∀ t ∈ head, (!opensListOrBody t) = true := fun t ht => by rw [hhead t ht]; rfl
  have hopener : (!opensListOrBody opener) = false := by simp [opensListOrBody, ho]
  have hencl := enclosed?_append_of_openScopes (b := .round) hinside (closer :: post)
  have hlast : Bracket.round.enclosed? 0 (closer :: post) = some ⟨[], closer, post⟩ := by
    have ho' : ¬ Bracket.round.opens closer = true := fun ho' => by
      rw [Bracket.not_closes_of_opens ho'] at hc
      cases hc
    rw [Bracket.enclosed?, if_neg ho', if_pos hc, if_pos rfl]
  rw [List.count_nil, hlast, Option.map_some, List.append_nil] at hencl
  rw [parameterList?, List.dropWhile_append_of_pos hskip, List.takeWhile_append_of_pos hskip,
    List.dropWhile_cons, List.takeWhile_cons, hopener, if_neg Bool.false_ne_true,
    if_neg Bool.false_ne_true]
  dsimp only
  rw [if_pos ho, hencl, Option.map_some, List.append_nil]

/-! ### The pass -/

/-- The same commas, with every parameter edited. -/
def Parameters.map (f : List Token → List Token) (ps : Parameters) : Parameters :=
  ⟨f ps.first, ps.later.map fun p => (p.1, f p.2)⟩

theorem unlabelledLater_eq (later : List (Token × List Token)) :
    unlabelledLater later
      = ⟨(later.map fun p => (p.1, withoutLabel p.2)).flatMap fun p => p.1 :: p.2,
        (later.map Prod.snd).countP fun p => (labelIndex? p).isSome⟩ := by
  induction later with
  | nil => rfl
  | cons p later ih =>
    obtain ⟨comma, parameter⟩ := p
    rw [unlabelledLater, unlabelled_eq, ih, List.map_cons, List.map_cons, List.countP_cons,
      Nat.add_comm]
    rfl

theorem Parameters.unlabelled_eq (ps : Parameters) :
    ps.unlabelled
      = ⟨(ps.map withoutLabel).whole, ps.toList.countP fun p => (labelIndex? p).isSome⟩ := by
  rw [Parameters.unlabelled, Kotlinize.unlabelled_eq, unlabelledLater_eq, Parameters.toList,
    List.countP_cons, Nat.add_comm]
  rfl

/-- The pass goes on over tokens that are no function keyword. -/
theorem dropLabels_append (h : ∀ t ∈ as, isFunctionKeyword t = false) (rest : List Token) :
    dropLabels (as ++ rest) = (dropLabels rest).append as := by
  induction as with
  | nil => rfl
  | cons t as ih =>
    rw [List.forall_mem_cons] at h
    rw [List.cons_append, dropLabels, h.1, if_neg Bool.false_ne_true, ih h.2]
    rfl

/-- A text without a function stays as it is. -/
theorem dropLabels_eq_self (h : ∀ t ∈ ts, isFunctionKeyword t = false) :
    dropLabels ts = ⟨ts, 0⟩ := by
  have happend := dropLabels_append h []
  rw [List.append_nil, dropLabels] at happend
  simpa [Edited.append, Edited.nil] using happend

theorem mem_of_mem_whole_map {f : List Token → List Token} {ps : Parameters} {t : Token}
    (hf : ∀ p, (f p).Sublist p) (h : t ∈ (ps.map f).whole) : t ∈ ps.whole := by
  simp only [Parameters.whole, Parameters.map, List.mem_append, List.mem_flatMap, List.mem_map,
    List.mem_cons] at h ⊢
  rcases h with h | ⟨_, ⟨p, hp, rfl⟩, h⟩
  · exact .inl ((hf ps.first).mem h)
  · exact .inr ⟨p, hp, h.imp_right (hf p.2).mem⟩

section

variable {pre head post : List Token} {keyword opener closer : Token} {ps : Parameters}

/-- **Labels go from exactly the labelled parameters.**  In a text with one function, whose
    parameters have their brackets in pairs and commas only inside these, each parameter that
    starts with a label and a name loses the label and the spacing right behind it; nothing else
    changes, and the count is the number of such parameters. -/
theorem dropLabels_eq_withoutLabel (hkeyword : isFunctionKeyword keyword = true)
    (hhead : ∀ t ∈ head, opensListOrBody t = false)
    (hopener : Bracket.round.opens opener = true)
    (hcommas : ∀ p ∈ ps.later, p.1.is .symbol "," = true)
    (hps : ∀ p ∈ ps.toList, IsParameter p) (hcloser : Bracket.round.closes closer = true)
    (hothers : ∀ t ∈ pre ++ (head ++ (ps.whole ++ post)), isFunctionKeyword t = false) :
    dropLabels (pre ++ keyword :: (head ++ opener :: (ps.whole ++ closer :: post)))
      = ⟨pre ++ keyword :: (head ++ opener :: ((ps.map withoutLabel).whole ++ closer :: post)),
        ps.toList.countP fun p => (labelIndex? p).isSome⟩ := by
  simp only [List.forall_mem_append] at hothers
  obtain ⟨hpre, hhead', hwhole, hpost⟩ := hothers
  have hlist := parameterList?_whole hhead hopener hcloser (nested_whole ps hcommas hps) post
  -- No function is left behind the keyword, so the pass ends there.
  have hrest : ∀ t ∈ head ++ opener :: ((ps.map withoutLabel).whole ++ closer :: post),
      isFunctionKeyword t = false := by
    simp only [List.forall_mem_append, List.forall_mem_cons]
    refine ⟨hhead', ?_, fun t ht => hwhole t (mem_of_mem_whole_map withoutLabel_sublist ht), ?_,
      hpost⟩
    · simp [isFunctionKeyword, Token.is, (Token.is_iff.1 hopener).1]
    · simp [isFunctionKeyword, Token.is, (Token.is_iff.1 hcloser).1]
  rw [dropLabels_append hpre, dropLabels, if_pos hkeyword, unlabelledList, hlist]
  dsimp only
  rw [splitParameters_whole ps hcommas hps, Parameters.unlabelled_eq, dropLabels_eq_self hrest]
  rfl

end

/-- A label goes with the spacing behind it but not with a comment, a tuple keeps its commas, an
    attribute is no label, and neither is a single name. -/
theorem dropLabels_tuple_comment_attribute :
    dropLabels [.keyword "func", .space, .identifier "f", Bracket.round.openToken,
        .identifier "from", .space, .newline, { kind := .comment, text := "/**/" },
        .identifier "x", .symbol ":", Bracket.round.openToken, .identifier "A", .symbol ",",
        .identifier "B", Bracket.round.closeToken, .symbol ",", .space, .keyword "@g", .space,
        .identifier "y", .symbol ",", .keyword "in", .space, .identifier "z",
        Bracket.round.closeToken, Bracket.curly.openToken, .identifier "a", .space,
        .identifier "b"]
      = ⟨[.keyword "func", .space, .identifier "f", Bracket.round.openToken,
        { kind := .comment, text := "/**/" },
        .identifier "x", .symbol ":", Bracket.round.openToken, .identifier "A", .symbol ",",
        .identifier "B", Bracket.round.closeToken, .symbol ",", .space, .keyword "@g", .space,
        .identifier "y", .symbol ",", .identifier "z",
        Bracket.round.closeToken, Bracket.curly.openToken, .identifier "a", .space,
        .identifier "b"], 2⟩ :=
  @dropLabels_eq_withoutLabel [] [.space, .identifier "f"]
    [Bracket.curly.openToken, .identifier "a", .space, .identifier "b"] (.keyword "func")
    Bracket.round.openToken Bracket.round.closeToken
    ⟨[.identifier "from", .space, .newline, { kind := .comment, text := "/**/" },
        .identifier "x", .symbol ":", Bracket.round.openToken, .identifier "A", .symbol ",",
        .identifier "B", Bracket.round.closeToken],
      [(.symbol ",", [.space, .keyword "@g", .space, .identifier "y"]),
        (.symbol ",", [.keyword "in", .space, .identifier "z"])]⟩
    (by decide) (by decide) (by decide) (by decide) (by decide) (by decide) (by decide)

end Kotlinize
