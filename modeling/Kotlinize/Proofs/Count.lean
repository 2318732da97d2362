import Kotlinize.Proofs.Bystander
import Kotlinize.Proofs.ScopeBalance

namespace Kotlinize

/-!
# Counts are exact

A stage reports how many edits it made.  This file says what that number tells of the tokens.

* `syntaxKeys`, `occurrences` — the tokens of a text that carry syntax, with their numbers.
* `Trade`, `Stage.trade?` — what a rewrite takes, and what it gives for it.
* `Rewrite.syntaxKeys_add`, `Rewrites.add_nsmul` — one rewrite trades once, `n` rewrites `n` times.
* `Stage.Accounts` — what the count of a stage says of the tokens before and after it.
* `tokens_of_isNoop` — a run that reports no edit leaves the tokens as they are.
* `counts_exact` — the count of every stage, and the texts without edits.
-/

variable {config : Config} {stage : Stage} {n : Nat} {t : Token} {ts as bs : List Token}

/-! ### Tokens that carry syntax -/

/-- The kinds of the tokens that carry no syntax. -/
def TokenKind.trivia : List TokenKind := [whitespace, linebreak, comment]

/-- The tokens of a list that carry syntax, as often as they occur, wherever they stand. -/
def syntaxKeys (ts : List Token) : Multiset (TokenKind × String) :=
  ((ts.filter fun t => !t.isTrivia).map Token.key : List (TokenKind × String))

/-- What one token adds to them. -/
def Token.share (t : Token) : Multiset (TokenKind × String) := if t.isTrivia then 0 else {t.key}

/-- How often a kind and a text occur in a list. -/
def occurrences (kind : TokenKind) (text : String) (ts : List Token) : Nat :=
  ts.countP fun t => t.is kind text

@[simp] theorem syntaxKeys_nil : syntaxKeys [] = 0 := rfl

@[simp] theorem syntaxKeys_append (as bs : List Token) :
    syntaxKeys (as ++ bs) = syntaxKeys as + syntaxKeys bs := by
  simp [syntaxKeys]

@[simp] theorem syntaxKeys_cons (t : Token) (ts : List Token) :
    syntaxKeys (t :: ts) = t.share + syntaxKeys ts := by
  cases h : t.isTrivia <;> simp [syntaxKeys, Token.share, h]

theorem share_of_isTrivia (h : t.isTrivia = true) : t.share = 0 := if_pos h

theorem share_of_is {kind : TokenKind} {text : String} (h : t.is kind text = true)
    (hk : kind ∉ TokenKind.trivia) : t.share = {(kind, text)} := by
  obtain ⟨hw, hl, hc⟩ : kind ≠ .whitespace ∧ kind ≠ .linebreak ∧ kind ≠ .comment := by
    simpa [TokenKind.trivia] using hk
  have ht : t.isTrivia = false := isTrivia_of_is h hw hl hc
  obtain ⟨rfl, rfl⟩ := Token.is_iff.1 h
  simp [Token.share, ht, Token.key]

@[simp] theorem share_space : Token.space.share = 0 := rfl

@[simp] theorem share_symbol (text : String) : (Token.symbol text).share = {(.symbol, text)} :=
  rfl

theorem syntaxKeys_of_isSpacing (h : ∀ t ∈ ts, t.isSpacing = true) : syntaxKeys ts = 0 := by
  have hf : ts.filter (fun t => !t.isTrivia) = [] :=
    List.filter_eq_nil_iff.2 fun t ht => by simp [Token.isTrivia_of_isSpacing (h t ht)]
  rw [syntaxKeys, hf]
  rfl

theorem count_syntaxKeys {kind : TokenKind} (hk : kind ∉ TokenKind.trivia) (text : String)
    (ts : List Token) : (syntaxKeys ts).count (kind, text) = occurrences kind text ts := by
  induction ts with
  | nil => rfl
  | cons t ts ih =>
    rw [syntaxKeys_cons, Multiset.count_add, ih, occurrences, occurrences, List.countP_cons,
      Nat.add_comm]
    congr 1
    cases ht : t.is kind text with
    | true =>
      rw [share_of_is ht hk, Multiset.count_singleton_self]
      rfl
    | false =>
      have hkey : (kind, text) ≠ t.key := by
        rw [Token.is, Bool.and_eq_false_iff, beq_eq_false_iff_ne, beq_eq_false_iff_ne] at ht
        rw [Token.key, Ne, Prod.mk.injEq, not_and_or]
        exact ht.imp Ne.symm Ne.symm
      unfold Token.share
      split
      · rfl
      · rw [Multiset.count_singleton, if_neg hkey]
        rfl

@[simp] theorem syntaxKeys_gapBefore (ts : List Token) : syntaxKeys (gapBefore ts) = 0 := by
  rcases gapBefore_eq ts with h | h <;> rw [h] <;> rfl

@[simp] theorem syntaxKeys_dropSpacingEnd (ts : List Token) :
    syntaxKeys (dropSpacingEnd ts) = syntaxKeys ts := by
  obtain ⟨spacing, hs, ht⟩ := exists_eq_dropSpacingEnd_append ts
  conv => rhs; rw [ht]
  rw [syntaxKeys_append, syntaxKeys_of_isSpacing hs, add_zero]

@[simp] theorem syntaxKeys_equalsSign (written ts : List Token) :
    syntaxKeys (equalsSign written ts) = {(.symbol, "=")} := by
  unfold equalsSign
  split <;> simp

/-! ### Trades -/

/-- Tokens that an edit takes from a text, and tokens that it gives for them. -/
structure Trade where
  taken : Multiset (TokenKind × String)
  given : Multiset (TokenKind × String)

/-- What every rewrite of a stage trades; `none` if its rewrites differ in this. -/
def Stage.trade? : Stage → Option Trade
  | namedArguments => some ⟨{(.symbol, ":")}, {(.symbol, "=")}⟩
  | parameterLabels => none
  | returnArrows => some ⟨{(.symbol, "->")}, {(.symbol, ":")}⟩
  | computedProperties => none
  | restrictedSetters => some ⟨{(.startOfScope, "("), (.endOfScope, ")")}, 0⟩
  | lateInitProperties => some ⟨{(.symbol, "!")}, {(.keyword, "lateinit")}⟩

theorem syntaxKeys_of_signature? {s : Signature} (h : signature? config ts = some s) :
    syntaxKeys ts = {(.symbol, "->")} + (syntaxKeys s.before + syntaxKeys s.result) := by
  have harrow : s.arrow.share = {(.symbol, "->")} :=
    share_of_is (isArrow_of_signature? h) (by decide)
  rw [← whole_of_signature? h, Signature.whole, syntaxKeys_append, syntaxKeys_cons, harrow]
  abel

theorem syntaxKeys_of_restricted? {declaration : List Token}
    (h : restricted? ts = some declaration) :
    syntaxKeys ts = {(.startOfScope, "("), (.endOfScope, ")")}
      + ({(.identifier, "set")} + syntaxKeys declaration) := by
  obtain ⟨before, opener, word, closer, behind, rfl, hb, ho, hw, hc, hs, -⟩ :=
    restricted?_eq_some h
  have hopener : opener.share = {(.startOfScope, "(")} :=
    share_of_is ho (by decide)
  have hword : word.share = {(.identifier, "set")} :=
    share_of_is hw (by decide)
  have hcloser : closer.share = {(.endOfScope, ")")} :=
    share_of_is hc (by decide)
  simp only [syntaxKeys_append, syntaxKeys_cons, syntaxKeys_of_isSpacing hb,
    syntaxKeys_of_isSpacing hs, hopener, hword, hcloser, Multiset.insert_eq_cons,
    ← Multiset.singleton_add]
  abel

/-- The line of a moved modifier holds the modifier and the word of the setter. -/
theorem syntaxKeys_setterLine (head? : Option Token) (modifier : Token) {after : List Token}
    (ha : after.head?.all Token.isLinebreak = true) :
    syntaxKeys (setterLine config head? modifier after)
      = modifier.share + {(.identifier, "set")} := by
  have hend : (after.head?.getD .newline).share = 0 :=
    share_of_isTrivia (isTrivia_of_isLinebreak _ (isLinebreak_lineEnd ha))
  have hindent : ∀ text, (Token.whitespace text).share = 0 := fun _ => rfl
  have hset : (Token.identifier "set").share = {(.identifier, "set")} := rfl
  simp [setterLine, hend, hindent, hset]

theorem syntaxKeys_of_unmarked? {us : List Token} (h : unmarked? ts = some us) :
    syntaxKeys ts = {(.symbol, "!")} + syntaxKeys us := by
  obtain ⟨_, type, mark, rest, -, rfl, rfl, -, -, hm⟩ := unmarked?_eq_some h
  have hmark : mark.share = {(.symbol, "!")} :=
    share_of_is hm (by decide)
  simp only [syntaxKeys_append, syntaxKeys_cons, hmark]
  abel

/-- **A rewrite trades what its stage says**, and no other token that carries syntax is lost or
    added. -/
theorem Rewrite.syntaxKeys_add {trade : Trade} (h : Rewrite config stage as bs)
    (ht : stage.trade? = some trade) :
    syntaxKeys bs + trade.taken = syntaxKeys as + trade.given := by
  cases h with
  | nameArgument pre colon post hc =>
    cases ht
    have hcolon : colon.share = {(.symbol, ":")} :=
      share_of_is hc (by decide)
    simp only [syntaxKeys_append, syntaxKeys_cons, syntaxKeys_equalsSign, hcolon]
    abel
  | dropLabel => cases ht
  | returnArrow pre keyword ts s hk hs =>
    cases ht
    simp only [syntaxKeys_append, syntaxKeys_cons, syntaxKeys_gapBefore, syntaxKeys_dropSpacingEnd,
      syntaxKeys_of_signature? hs, share_symbol]
    abel
  | suffixAccessors => cases ht
  | relocateSetter pre modifier ts line after _ hr _ ha =>
    cases ht
    simp only [syntaxKeys_append, syntaxKeys_cons, syntaxKeys_setterLine _ _ ha,
      syntaxKeys_of_restricted? hr]
    abel
  | markLateInit pre keyword ts us hk hu =>
    cases ht
    have hmodifier : syntaxKeys lateInitModifier = {(.keyword, "lateinit")} := rfl
    simp only [syntaxKeys_append, syntaxKeys_cons, hmodifier, syntaxKeys_of_unmarked? hu]
    abel

/-! ### Labels -/

/-- Whether a token is a name or a keyword. -/
def isName (t : Token) : Bool := t.isIdentifier || t.isKeyword

theorem skipsSpacing_isName : SkipsSpacing isName :=
  .of_kind <| by rintro t (h | h) <;> simp [isName, Token.isIdentifier, Token.isKeyword, h]

theorem isName_of_isLabel (h : isLabel t = true) : isName t = true := by
  rw [isLabel, Bool.or_eq_true, Bool.and_eq_true] at h
  rw [isName, Bool.or_eq_true]
  exact h.imp_right And.left

/-- A dropped label is one name less. -/
theorem Rewrite.countP_isName (h : Rewrite config .parameterLabels as bs) :
    bs.countP isName + 1 = as.countP isName := by
  cases h with
  | dropLabel pre separator parameter bare post _ hp =>
    obtain ⟨trivia, label, spacing, rest, rfl, rfl, -, hl, hs, -⟩ := unlabelled?_eq_some hp
    have hspacing : spacing.countP isName = 0 := by
      rw [List.countP_eq_length_filter, skipsSpacing_isName.filter_eq_nil hs, List.length_nil]
    simp only [List.countP_append, List.countP_cons, if_pos (isName_of_isLabel hl), hspacing]
    omega

/-! ### Accessors -/

/-- The number of variable keywords and opening braces. -/
def variablesAndBraces (ts : List Token) : Nat :=
  variableCount ts + ts.countP Bracket.curly.opens

theorem bystander_opens_curly : Bystander Bracket.curly.opens where
  spacing := .of_kind <| by rintro t (h | h) <;> simp [Bracket.opens, Token.is, h]
  identifier _ := rfl
  opener := by decide
  closer := by decide

theorem opens_of_isVariableKeyword (h : isVariableKeyword t = true) (b : Bracket) :
    b.opens t = false := by
  rw [isVariableKeyword, Token.is_iff] at h
  simp [Bracket.opens, Token.is, h.1]

/-- A getter takes over the braces of its property, and accessors leave them. -/
theorem countP_opens_of_suffixed? {keyword keyword' : Token} {edited : List Token}
    (h : suffixed? config keyword ts = some (keyword', edited)) :
    edited.countP Bracket.curly.opens = ts.countP Bracket.curly.opens
        ∧ keyword' = constantKeyword
      ∨ edited.countP Bracket.curly.opens < ts.countP Bracket.curly.opens := by
  obtain ⟨p, hp, hform⟩ := suffixed?_eq_some h
  rw [← whole_of_propertyBody? hp, List.countP_eq_length_filter, List.countP_eq_length_filter]
  rcases hform with ⟨-, hk, rfl⟩ | ⟨_, -, -, rfl⟩
  · left
    exact ⟨by rw [bystander_opens_curly.filter_withGetter], hk⟩
  · right
    have ho := opens_of_propertyBody? hp
    rw [bystander_opens_curly.filter_withoutBraces]
    simp only [PropertyBody.whole, Enclosed.whole, List.filter_append, List.length_append,
      List.filter_cons_of_pos ho, List.length_cons]
    have hclose := (List.sublist_cons_self p.enclosed.close p.enclosed.tail).filter
      Bracket.curly.opens
    have hlen := hclose.length_le
    omega

/-- A changed property loses its variable keyword or its braces. -/
theorem Rewrite.variablesAndBraces_lt (h : Rewrite config .computedProperties as bs) :
    variablesAndBraces bs < variablesAndBraces as := by
  cases h with
  | suffixAccessors pre keyword ts keyword' edited hk hs =>
    have hvariables : variableCount edited ≤ variableCount ts := variableCount_suffixed?_le hs
    have hconstant : isVariableKeyword constantKeyword = false := by decide
    have hopens : Bracket.curly.opens constantKeyword = false := by decide
    simp only [variablesAndBraces, variableCount_append, variableCount_cons, List.countP_append,
      List.countP_cons, hk, opens_of_isVariableKeyword hk]
    rcases countP_opens_of_suffixed? hs with ⟨hbraces, rfl⟩ | hbraces
    · simp only [hconstant, hopens, if_true, Bool.false_eq_true, if_false]
      omega
    · rcases keyword_of_suffixed? hs with rfl | rfl
      · simp only [hk, opens_of_isVariableKeyword hk, if_true, Bool.false_eq_true, if_false]
        omega
      · simp only [hconstant, hopens, if_true, Bool.false_eq_true, if_false]
        omega

/-! ### Runs -/

namespace Rewrites

/-- What every rewrite takes and gives once, a run takes and gives as often as it rewrites. -/
theorem add_nsmul {M : Type} [AddCommMonoid M] {f : List Token → M} {taken given : M}
    (hstep : ∀ as bs, Rewrite config stage as bs → f bs + taken = f as + given)
    (h : Rewrites config stage n as bs) : f bs + n • taken = f as + n • given := by
  induction h with
  | refl ts => rw [zero_nsmul, zero_nsmul]
  | @step n as bs cs h _ ih =>
    calc f cs + (n + 1) • taken = (f cs + n • taken) + taken := by rw [succ_nsmul, add_assoc]
      _ = (f bs + taken) + n • given := by rw [ih, add_right_comm]
      _ = f as + (n + 1) • given := by rw [hstep _ _ h, succ_nsmul', add_assoc]

/-- What every rewrite makes smaller, a run makes smaller by at least its length. -/
theorem add_le {f : List Token → Nat} (hstep : ∀ as bs, Rewrite config stage as bs → f bs < f as)
    (h : Rewrites config stage n as bs) : f bs + n ≤ f as := by
  induction h with
  | refl => exact Nat.le_refl _
  | step h _ ih =>
    have := hstep _ _ h
    omega

/-- A run trades as often as it rewrites. -/
theorem syntaxKeys_add {trade : Trade} (h : Rewrites config stage n as bs)
    (ht : stage.trade? = some trade) :
    syntaxKeys bs + n • trade.taken = syntaxKeys as + n • trade.given :=
  h.add_nsmul fun _ _ hr => hr.syntaxKeys_add ht

/-- Where a stage trades one token for another, its runs do so as often as they rewrite. -/
theorem occurrences_of_trade {kind kind' : TokenKind} {text text' : String}
    (h : Rewrites config stage n as bs)
    (ht : stage.trade? = some ⟨{(kind, text)}, {(kind', text')}⟩) (hk : kind ∉ TokenKind.trivia)
    (hk' : kind' ∉ TokenKind.trivia) (hne : (kind, text) ≠ (kind', text')) :
    occurrences kind text bs + n = occurrences kind text as ∧
      occurrences kind' text' bs = occurrences kind' text' as + n := by
  have hkeys := h.syntaxKeys_add ht
  constructor
  · have hcount := congrArg (Multiset.count (kind, text)) hkeys
    simpa [Multiset.count_singleton, count_syntaxKeys hk, hne] using hcount
  · have hcount := congrArg (Multiset.count (kind', text')) hkeys
    simpa [Multiset.count_singleton, count_syntaxKeys hk', hne.symm] using hcount

end Rewrites

/-! ### What a count says -/

/-- What the count of a stage says of the tokens before and after it. -/
def Stage.Accounts (n : Nat) (before after : List Token) : Stage → Prop
  | namedArguments =>
    occurrences .symbol ":" after + n = occurrences .symbol ":" before ∧
      occurrences .symbol "=" after = occurrences .symbol "=" before + n
  | parameterLabels => after.countP isName + n = before.countP isName
  | returnArrows =>
    occurrences .symbol "->" after + n = occurrences .symbol "->" before ∧
      occurrences .symbol ":" after = occurrences .symbol ":" before + n
  | computedProperties => variablesAndBraces after + n ≤ variablesAndBraces before
  | restrictedSetters =>
    syntaxKeys after + n • {(.startOfScope, "("), (.endOfScope, ")")} = syntaxKeys before
  | lateInitProperties =>
    occurrences .symbol "!" after + n = occurrences .symbol "!" before ∧
      occurrences .keyword "lateinit" after = occurrences .keyword "lateinit" before + n

theorem Rewrites.accounts (h : Rewrites config stage n as bs) : stage.Accounts n as bs := by
  cases stage with
  | namedArguments | returnArrows | lateInitProperties =>
    exact h.occurrences_of_trade rfl (by decide) (by decide) (by decide)
  | parameterLabels =>
    have hnames : bs.countP isName + n • 1 = as.countP isName + n • 0 :=
      h.add_nsmul fun _ _ hr => hr.countP_isName
    show bs.countP isName + n = as.countP isName
    simpa using hnames
  | computedProperties => exact h.add_le fun _ _ hr => hr.variablesAndBraces_lt
  | restrictedSetters =>
    have hkeys := h.syntaxKeys_add rfl
    rwa [nsmul_zero, add_zero] at hkeys

/-- Tokens that are the same as before are counted as no edit. -/
theorem Stage.Accounts.eq_zero (h : stage.Accounts n ts ts) : n = 0 := by
  cases stage with
  | namedArguments | returnArrows | lateInitProperties =>
    have htaken := h.1
    omega
  | parameterLabels | computedProperties =>
    unfold Stage.Accounts at h
    omega
  | restrictedSetters =>
    have hcard := congrArg Multiset.card h
    simpa using hcard

/-- A stage counts no edit if, and only if, it leaves the tokens as they are. -/
theorem Stage.count_apply_eq_zero_iff (config : Config) (stage : Stage) (ts : List Token) :
    (stage.apply config ts).count = 0 ↔ (stage.apply config ts).tokens = ts := by
  have hrun := stage.rewrites_apply config ts
  constructor
  · intro hzero
    rw [hzero] at hrun
    generalize (stage.apply config ts).tokens = us at hrun
    cases hrun
    rfl
  · intro hsame
    rw [hsame] at hrun
    exact hrun.accounts.eq_zero

/-! ### Reports without edits -/

/-- A run that reports no edit leaves the tokens as they are. -/
theorem tokens_of_isNoop {stages : List Stage} {o : Outcome}
    (h : runStages config stages ts = .ok o) (hn : o.report.isNoop = true) : o.tokens = ts := by
  induction stages generalizing ts o with
  | nil =>
    cases h
    rfl
  | cons stage stages ih =>
    rw [runStages, runStage_eq_ok] at h
    dsimp only at h
    split at h
    · cases h
    · rename_i o' ho
      cases h
      obtain ⟨hzero, hn'⟩ : (stage.apply config ts).count = 0 ∧ o'.report.isNoop = true := by
        simpa [Report.isNoop, StageCount.isNoop] using hn
      show o'.tokens = ts
      rw [ih ho hn', (stage.count_apply_eq_zero_iff config ts).1 hzero]

/-- A converted text is written from the tokens that the stages leave. -/
theorem of_convertWithReport {source : String} {c : Conversion}
    (h : convertWithReport config source = .ok c) :
    ∃ ts o, tokenize source = .ok ts ∧ convertTokens config ts = .ok o ∧
      c = ⟨render o.tokens, o.report⟩ := by
  unfold convertWithReport at h
  split at h
  · cases h
  · rename_i ts hts
    split at h
    · cases h
    · rename_i o ho
      cases h
      exact ⟨ts, o, hts, ho, rfl⟩

/-- **Counts are exact.**  With any configuration and on any list of tokens, a stage counts no
    edit exactly if it leaves the list as it is, places included; and what it counts is what it
    takes from the text and what it gives for it.  Hence a text whose report shows no edit comes
    out as it went in, a byte order mark in front of it apart. -/
theorem counts_exact (config : Config) :
    (∀ (stage : Stage) (ts : List Token),
      ((stage.apply config ts).count = 0 ↔ (stage.apply config ts).tokens = ts) ∧
        stage.Accounts (stage.apply config ts).count ts (stage.apply config ts).tokens) ∧
    ∀ (source : String) (c : Conversion), convertWithReport config source = .ok c →
      c.report.isNoop = true → c.text.toList = dropMark source.toList := by
  refine ⟨fun stage ts => ?_, fun source c h hn => ?_⟩
  · exact ⟨stage.count_apply_eq_zero_iff config ts, (stage.rewrites_apply config ts).accounts⟩
  · obtain ⟨ts, o, hts, ho, rfl⟩ := of_convertWithReport h
    have hsame : o.tokens = ts := tokens_of_isNoop ho hn
    rw [toList_render, hsame, spelling_of_tokenize hts]

/-- A marked text in which no stage finds anything to edit. -/
theorem counts_exact_marked_property :
    convertWithReport .default "\ufeffvar a:I"
        = .ok ⟨"var a:I", ⟨Stage.all.map fun stage => ⟨stage, 0⟩⟩⟩ ∧
      "var a:I".toList = dropMark "\ufeffvar a:I".toList := by
  have h : convertWithReport .default "\ufeffvar a:I"
      = .ok ⟨"var a:I", ⟨Stage.all.map fun stage => ⟨stage, 0⟩⟩⟩ := by
    cbv
  exact ⟨h, (counts_exact .default).2 _ _ h (by decide)⟩

end Kotlinize
