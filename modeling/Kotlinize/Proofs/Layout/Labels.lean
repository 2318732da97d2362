import Kotlinize.Proofs.Layout.Bare
import Kotlinize.Proofs.ScopeBalance

namespace Kotlinize

/-!
# Labels, and the layout of a text

A parameter list is found, cut at its commas and freed from its labels by searches that pass over
trivia, so the second pass is independent of the layout as the first one is.

* `enclosed?_bare`, `parameterList?_bare`, `splitParameters_bare` — the searches.
* `bare_dropLabels` — the pass over labels is independent of the layout.
* `runStages_layout` — and so are the first two passes of a run on a source text.
-/

variable {t : Token} {ts : List Token}

/-! ### Searches for a token that carries syntax -/

/-- The first token that carries syntax is the first one of the bare text. -/
theorem head?_bare (ts : List Token) :
    (bare ts).head? = (significant ts).head?.map Token.unplaced := by
  rw [← bare_significant]
  cases h : significant ts with
  | nil => rfl
  | cons t rest => rw [bare_cons_of_code (isTrivia_of_significant_eq_cons h)]; rfl

/-! ### Brackets and parameter lists -/

/-- The tokens after an opener, without the layout. -/
def Enclosed.bare (e : Enclosed) : Enclosed :=
  ⟨Kotlinize.bare e.inside, e.close.unplaced, Kotlinize.bare e.tail⟩

/-- The tokens after a function keyword, without the layout. -/
def ParameterList.bare (p : ParameterList) : ParameterList :=
  ⟨Kotlinize.bare p.name, p.opener.unplaced, p.enclosed.bare⟩

/-- The parameters of a list, without the layout. -/
def Parameters.bare (ps : Parameters) : Parameters :=
  ⟨Kotlinize.bare ps.first, ps.later.map fun p => (p.1.unplaced, Kotlinize.bare p.2)⟩

theorem Enclosed.bare_cons_of_isTrivia (h : t.isTrivia = true) (e : Enclosed) :
    (e.cons t).bare = e.bare := by
  rw [Enclosed.bare, Enclosed.cons, Kotlinize.bare_cons_of_isTrivia h]
  rfl

theorem Enclosed.bare_cons_of_code (h : t.isTrivia = false) (e : Enclosed) :
    (e.cons t).bare = e.bare.cons t.unplaced := by
  rw [Enclosed.bare, Enclosed.cons, Kotlinize.bare_cons_of_code h]
  rfl

/-- In the bare text an opener has the same partner. -/
theorem enclosed?_bare (b : Bracket) (depth : Nat) (ts : List Token) :
    b.enclosed? depth (bare ts) = (b.enclosed? depth ts).map Enclosed.bare := by
  fun_induction Bracket.enclosed? b depth ts with
  | case1 => rfl
  | case2 depth t ts ho ih =>
    have ht := isTrivia_of_opens ho
    have ho' : b.opens t.unplaced = true := ho
    rw [bare_cons_of_code ht, Bracket.enclosed?, if_pos ho', ih, Option.map_map, Option.map_map]
    exact congrArg (Option.map · _) (funext fun e => (Enclosed.bare_cons_of_code ht e).symm)
  | case3 t ts ho hc =>
    have ht := isTrivia_of_closes hc
    have ho' : ¬ b.opens t.unplaced = true := ho
    have hc' : b.closes t.unplaced = true := hc
    rw [bare_cons_of_code ht, Bracket.enclosed?, if_neg ho', if_pos hc', if_pos rfl]
    rfl
  | case4 depth t ts ho hc hd ih =>
    have ht := isTrivia_of_closes hc
    have ho' : ¬ b.opens t.unplaced = true := ho
    have hc' : b.closes t.unplaced = true := hc
    rw [bare_cons_of_code ht, Bracket.enclosed?, if_neg ho', if_pos hc', if_neg hd, ih,
      Option.map_map, Option.map_map]
    exact congrArg (Option.map · _) (funext fun e => (Enclosed.bare_cons_of_code ht e).symm)
  | case5 depth t ts ho hc ih =>
    cases ht : t.isTrivia with
    | true =>
      rw [bare_cons_of_isTrivia ht, ih, Option.map_map]
      exact congrArg (Option.map · _) (funext fun e => (Enclosed.bare_cons_of_isTrivia ht e).symm)
    | false =>
      have ho' : ¬ b.opens t.unplaced = true := ho
      have hc' : ¬ b.closes t.unplaced = true := hc
      rw [bare_cons_of_code ht, Bracket.enclosed?, if_neg ho', if_neg hc', ih, Option.map_map,
        Option.map_map]
      exact congrArg (Option.map · _) (funext fun e => (Enclosed.bare_cons_of_code ht e).symm)

theorem parameterList?_bare (ts : List Token) :
    parameterList? (bare ts) = (parameterList? ts).map ParameterList.bare := by
  have hskip : ∀ t : Token, t.isTrivia = true → (!opensListOrBody t) = true := by
    intro t ht
    rw [opensListOrBody, opens_eq_false_of_isTrivia _ ht, opens_eq_false_of_isTrivia _ ht]
    rfl
  have hdrop := dropWhile_bare (p := fun t => !opensListOrBody t) (fun _ => rfl) hskip ts
  have htake := takeWhile_bare (p := fun t => !opensListOrBody t) (fun _ => rfl) hskip ts
  unfold parameterList?
  rw [hdrop, htake]
  cases hd : ts.dropWhile (fun t => !opensListOrBody t) with
  | nil => rfl
  | cons opener rest =>
    have hopener : opensListOrBody opener = true := by
      have hhead := List.head?_dropWhile_not (fun t => !opensListOrBody t) ts
      simpa [hd] using hhead
    have ht : opener.isTrivia = false := by
      rw [Bool.eq_false_iff]
      intro ht
      simpa [hopener] using hskip opener ht
    rw [bare_cons_of_code ht]
    dsimp only
    by_cases ho : Bracket.round.opens opener = true
    · have ho' : Bracket.round.opens opener.unplaced = true := ho
      rw [if_pos ho, if_pos ho', enclosed?_bare, Option.map_map, Option.map_map]
      rfl
    · have ho' : ¬ Bracket.round.opens opener.unplaced = true := ho
      rw [if_neg ho, if_neg ho']
      rfl

theorem depthFrom_of_isTrivia (h : t.isTrivia = true) (depth : Nat) :
    t.depthFrom depth = depth := by
  rw [Token.isTrivia, Token.isSpacing, Bool.or_eq_true, Bool.or_eq_true, beq_iff_eq, beq_iff_eq,
    beq_iff_eq] at h
  unfold Token.depthFrom
  rcases h with (h | h) | h <;> rw [h]

theorem splitParameters_bare (depth : Nat) (ts : List Token) :
    splitParameters depth (bare ts) = (splitParameters depth ts).bare := by
  induction ts generalizing depth with
  | nil => rfl
  | cons t ts ih =>
    cases ht : t.isTrivia with
    | true =>
      have hcomma : t.is .symbol "," = false :=
        Bool.eq_false_iff.2 fun hc => Bool.false_ne_true
          ((isTrivia_of_is hc (by decide) (by decide) (by decide)).symm.trans ht)
      have hdepth : t.depthFrom depth = depth := depthFrom_of_isTrivia ht depth
      rw [bare_cons_of_isTrivia ht, ih, splitParameters, hcomma, Bool.and_false,
        if_neg Bool.false_ne_true, hdepth, Parameters.bare, Parameters.bare, Parameters.cons,
        bare_cons_of_isTrivia ht]
    | false =>
      have hcomma : t.unplaced.is .symbol "," = t.is .symbol "," := rfl
      have hdepth : t.unplaced.depthFrom depth = t.depthFrom depth := rfl
      rw [bare_cons_of_code ht, splitParameters, splitParameters, hcomma, hdepth, ih, ih]
      split
      · rfl
      · rw [Parameters.bare, Parameters.bare, Parameters.cons, Parameters.cons,
          bare_cons_of_code ht]

/-! ### Labels -/

/-- No spacing is left in the bare text that could stand behind a label. -/
theorem dropWhile_isSpacing_bare (ts : List Token) :
    (bare ts).dropWhile Token.isSpacing = bare ts := by
  cases h : bare ts with
  | nil => rfl
  | cons t us =>
    have ht : t.isTrivia = false := isTrivia_of_mem_bare (h ▸ List.mem_cons_self)
    refine List.dropWhile_cons_of_neg fun hs => ?_
    rw [Token.isTrivia_of_isSpacing hs] at ht
    cases ht

theorem unlabelled?_bare (parameter : List Token) :
    unlabelled? (bare parameter) = (unlabelled? parameter).map bare := by
  unfold unlabelled?
  rw [significant_bare, leadingTrivia_bare, ← bare_significant]
  cases hs : significant parameter with
  | nil => rfl
  | cons label rest =>
    have ht := isTrivia_of_significant_eq_cons hs
    rw [bare_cons_of_code ht]
    dsimp only
    have hlabel : isLabel label.unplaced = isLabel label := rfl
    rw [significant_bare, head?_bare, Option.any_map, hlabel]
    show (if (isLabel label && (significant rest).head?.any Token.isIdentifier) = true
      then _ else _) = _
    split
    · rw [Option.map_some, bare_append, bare_leadingTrivia, bare_dropWhile_isSpacing,
        dropWhile_isSpacing_bare]
    · rfl

theorem unlabelled_bare (parameter : List Token) :
    unlabelled (bare parameter) = (unlabelled parameter).bare := by
  unfold unlabelled
  rw [unlabelled?_bare]
  cases unlabelled? parameter <;> rfl

theorem unlabelledLater_bare (later : List (Token × List Token))
    (h : ∀ p ∈ later, p.1.isTrivia = false) :
    unlabelledLater (later.map fun p => (p.1.unplaced, bare p.2))
      = (unlabelledLater later).bare := by
  induction later with
  | nil => rfl
  | cons p later ih =>
    rw [List.forall_mem_cons] at h
    rw [List.map_cons, unlabelledLater, unlabelledLater, ih h.2, unlabelled_bare,
      Edited.bare_counted, Edited.bare_append, bare_cons_of_code h.1]
    rfl

theorem Parameters.unlabelled_bare (ps : Parameters)
    (h : ∀ p ∈ ps.later, p.1.isTrivia = false) : ps.bare.unlabelled = ps.unlabelled.bare := by
  unfold Parameters.unlabelled
  rw [Parameters.bare, unlabelledLater_bare ps.later h, Kotlinize.unlabelled_bare,
    Edited.bare_counted, Edited.bare_append]
  rfl

theorem isTrivia_of_mem_later {depth : Nat} {p : Token × List Token}
    (h : p ∈ (splitParameters depth ts).later) : p.1.isTrivia = false := by
  fun_induction splitParameters depth ts with
  | case1 => cases h
  | case2 depth t ts hc ps ih =>
    rcases List.mem_cons.1 h with rfl | h
    · rw [Bool.and_eq_true] at hc
      exact isTrivia_of_is hc.2 (by decide) (by decide) (by decide)
    · exact ih h
  | case3 depth t ts _ ih => exact ih h

theorem unlabelledList_bare (ts : List Token) :
    unlabelledList (bare ts) = (unlabelledList ts).bare := by
  unfold unlabelledList
  rw [parameterList?_bare]
  cases hp : parameterList? ts with
  | none => rfl
  | some p =>
    have ho := isTrivia_of_opens (opens_of_parameterList? hp)
    have hc := isTrivia_of_closes (closes_of_parameterList? hp)
    rw [Option.map_some]
    dsimp only [ParameterList.bare, Enclosed.bare]
    rw [splitParameters_bare, Parameters.unlabelled_bare _ fun p => isTrivia_of_mem_later]
    simp only [Edited.bare, bare_append, bare_cons_of_code ho, bare_cons_of_code hc]

/-- **The pass over labels is independent of the layout**: its edits, and what it leaves apart
    from the layout, are those it makes in the bare text. -/
theorem bare_dropLabels (ts : List Token) : dropLabels (bare ts) = (dropLabels ts).bare := by
  fun_induction dropLabels ts with
  | case1 =>
    rw [bare_nil, dropLabels]
    rfl
  | case2 t ts hk e ih =>
    have ht := isTrivia_of_is hk (by decide) (by decide) (by decide)
    have hk' : isFunctionKeyword t.unplaced = true := hk
    rw [bare_cons_of_code ht, dropLabels, if_pos hk', unlabelledList_bare, Edited.bare_counted,
      Edited.bare_cons_of_code ht, ← ih]
    rfl
  | case3 t ts hk ih =>
    cases ht : t.isTrivia with
    | true => rw [bare_cons_of_isTrivia ht, ih, Edited.bare_cons_of_isTrivia ht]
    | false =>
      have hk' : ¬ isFunctionKeyword t.unplaced = true := hk
      rw [bare_cons_of_code ht, dropLabels, if_neg hk', ih, Edited.bare_cons_of_code ht]

/-! ### The first two passes of a run -/

theorem runStages_calls_labels (config : Config) (ts : List Token) :
    let e := nameArguments config ts
    runStages config [.namedArguments, .parameterLabels] ts
      = .ok ⟨(dropLabels e.tokens).tokens,
          ⟨[⟨.namedArguments, e.count⟩, ⟨.parameterLabels, (dropLabels e.tokens).count⟩]⟩⟩ := by
  rw [runStages, runStage_eq_ok]
  dsimp only
  rw [runStages, runStage_eq_ok]
  rfl

/-- **The first two passes are independent of the layout.**  Of two source texts that differ in
    blanks, line ends and comments only, the passes over call-site colons and over labels make,
    with the default settings, the same numbers of edits, and what they leave differs in blanks,
    line ends and comments only. -/
theorem runStages_layout {source source' : String} {ts ts' : List Token}
    (hs : tokenize source = .ok ts) (hs' : tokenize source' = .ok ts') (h : bare ts = bare ts') :
    ∃ o o', runStages .default [.namedArguments, .parameterLabels] ts = .ok o ∧
      runStages .default [.namedArguments, .parameterLabels] ts' = .ok o' ∧
      o.report = o'.report ∧ bare o.tokens = bare o'.tokens := by
  have hspace : Config.default.isDeclarationKeyword Token.space.text = false := by decide
  have hcalls : (nameArguments .default ts).bare = (nameArguments .default ts').bare := by
    rw [← bare_nameArguments hspace (skips_of_tokenize hs), h,
      bare_nameArguments hspace (skips_of_tokenize hs')]
  have hlabels : (dropLabels (nameArguments .default ts).tokens).bare
      = (dropLabels (nameArguments .default ts').tokens).bare := by
    rw [← bare_dropLabels, ← bare_dropLabels]
    exact congrArg (fun e => dropLabels e.tokens) hcalls
  have hcounts : (nameArguments .default ts).count = (nameArguments .default ts').count :=
    (congrArg Edited.count hcalls :)
  have hcounts' : (dropLabels (nameArguments .default ts).tokens).count
      = (dropLabels (nameArguments .default ts').tokens).count :=
    (congrArg Edited.count hlabels :)
  refine ⟨_, _, runStages_calls_labels .default ts, runStages_calls_labels .default ts', ?_,
    congrArg Edited.tokens hlabels⟩
  dsimp only
  rw [hcounts, hcounts']

/-- Two texts that differ in their layout, with a colon and a label to be edited in each. -/
theorem runStages_layout_spread_out :
    ∃ ts ts' o o', tokenize "0:1;func(a b:2)" = .ok ts ∧
      tokenize "0 :1;//\nfunc( a\nb:2)" = .ok ts' ∧ bare ts = bare ts' ∧
      runStages .default [.namedArguments, .parameterLabels] ts = .ok o ∧
      runStages .default [.namedArguments, .parameterLabels] ts' = .ok o' ∧
      render o.tokens = "0 = 1;func(b:2)" ∧ render o'.tokens = "0 = 1;//\nfunc( b:2)" ∧
      o.report = o'.report ∧ bare o.tokens = bare o'.tokens := by
  have hrun : ((tokenize "0:1;func(a b:2)").toOption.bind fun ts =>
      (tokenize "0 :1;//\nfunc( a\nb:2)").toOption.map fun ts' =>
        (decide (bare ts = bare ts'),
          (runStages .default [.namedArguments, .parameterLabels] ts).toOption.map
            fun o => render o.tokens,
          (runStages .default [.namedArguments, .parameterLabels] ts').toOption.map
            fun o => render o.tokens))
        = some (true, some "0 = 1;func(b:2)", some "0 = 1;//\nfunc( b:2)") := by
    cbv
  obtain ⟨ts, hts, hvalue⟩ := Option.bind_eq_some_iff.1 hrun
  obtain ⟨ts', hts', hall⟩ := Option.map_eq_some_iff.1 hvalue
  simp only [Prod.mk.injEq, decide_eq_true_eq] at hall
  obtain ⟨hbare, hrender, hrender'⟩ := hall
  have hs := eq_ok_of_toOption hts
  have hs' := eq_ok_of_toOption hts'
  obtain ⟨o, o', ho, ho', hreport, htokens⟩ := runStages_layout hs hs' hbare
  rw [ho] at hrender
  rw [ho'] at hrender'
  exact ⟨ts, ts', o, o', hs, hs', hbare, ho, ho', Option.some.inj hrender,
    Option.some.inj hrender', hreport, htokens⟩

end Kotlinize
