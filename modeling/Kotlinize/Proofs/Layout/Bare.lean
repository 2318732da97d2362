import Kotlinize.Proofs.Call.ColonRole
import Kotlinize.Proofs.Lexemes
import Kotlinize.Proofs.Reread.NextAgain

namespace Kotlinize

/-!
# Texts without their layout

How a text is laid out, where its blanks, line ends and comments stand and so where its tokens
do, should not matter to what it means.  A pass over a text is independent of the layout if it
commutes with taking the layout away.

* `Token.unplaced`, `bare` — a token without its place, a text without its layout.
* `significant_bare`, `dropWhile_bare`, … — searches that skip trivia see the bare text.
* `Config.Skips`, `skips_of_tokenize` — no trivia of a source text reads like a declaration
  keyword.
* `bare_nameArguments` — the pass over call-site colons is independent of the layout.
-/

variable {config : Config} {t : Token} {ts as bs : List Token}

/-! ### The bare text -/

/-- The token without its place. -/
def Token.unplaced (t : Token) : Token := { t with pos := .unplaced }

@[simp] theorem Token.isTrivia_unplaced (t : Token) : t.unplaced.isTrivia = t.isTrivia := rfl

/-- The tokens of a text that carry syntax, without their places. -/
def bare (ts : List Token) : List Token := (ts.filter fun t => !t.isTrivia).map Token.unplaced

/-- The bare text after some edits, with their number. -/
def Edited.bare (e : Edited) : Edited := ⟨Kotlinize.bare e.tokens, e.count⟩

@[simp] theorem bare_nil : bare [] = [] := rfl

theorem bare_cons_of_isTrivia (h : t.isTrivia = true) (ts : List Token) :
    bare (t :: ts) = bare ts := by
  simp [bare, h]

theorem bare_cons_of_code (h : t.isTrivia = false) (ts : List Token) :
    bare (t :: ts) = t.unplaced :: bare ts := by
  simp [bare, h]

@[simp] theorem bare_append (as bs : List Token) : bare (as ++ bs) = bare as ++ bare bs := by
  simp [bare]

theorem bare_reverse (ts : List Token) : bare ts.reverse = (bare ts).reverse := by
  simp [bare]

theorem bare_eq_nil (h : ∀ t ∈ ts, t.isTrivia = true) : bare ts = [] := by
  rw [bare, List.map_eq_nil_iff, List.filter_eq_nil_iff]
  intro t ht
  simp [h t ht]

theorem bare_leadingTrivia (ts : List Token) : bare (leadingTrivia ts) = [] :=
  bare_eq_nil fun _ => isTrivia_of_mem_leadingTrivia

theorem bare_gapBefore (ts : List Token) : bare (gapBefore ts) = [] := by
  rcases gapBefore_eq ts with h | h <;> rw [h] <;> rfl

namespace Edited

theorem bare_cons_of_isTrivia (h : t.isTrivia = true) (e : Edited) : (e.cons t).bare = e.bare := by
  rw [Edited.bare, tokens_cons, Kotlinize.bare_cons_of_isTrivia h]
  rfl

theorem bare_cons_of_code (h : t.isTrivia = false) (e : Edited) :
    (e.cons t).bare = e.bare.cons t.unplaced := by
  rw [Edited.bare, tokens_cons, Kotlinize.bare_cons_of_code h]
  rfl

@[simp] theorem bare_append (ts : List Token) (e : Edited) :
    (e.append ts).bare = e.bare.append (Kotlinize.bare ts) := by
  rw [Edited.bare, tokens_append, Kotlinize.bare_append]
  rfl

@[simp] theorem bare_counted (n : Nat) (e : Edited) : (e.counted n).bare = e.bare.counted n := rfl

end Edited

/-! ### Searches that skip trivia -/

section Search

variable {p : Token → Bool} (hp : ∀ t, p t.unplaced = p t)
include hp

/-- A search that trivia cannot end finds the same in the bare text. -/
theorem dropWhile_bare (hskip : ∀ t, t.isTrivia = true → p t = true) (ts : List Token) :
    (bare ts).dropWhile p = bare (ts.dropWhile p) := by
  induction ts with
  | nil => rfl
  | cons t ts ih =>
    cases ht : t.isTrivia with
    | true => rw [bare_cons_of_isTrivia ht, List.dropWhile_cons_of_pos (hskip t ht), ih]
    | false =>
      by_cases h : p t = true
      · rw [bare_cons_of_code ht, List.dropWhile_cons_of_pos h,
          List.dropWhile_cons_of_pos ((hp t).trans h), ih]
      · rw [List.dropWhile_cons_of_neg h, bare_cons_of_code ht,
          List.dropWhile_cons_of_neg ((hp t).symm ▸ h)]

theorem takeWhile_bare (hskip : ∀ t, t.isTrivia = true → p t = true) (ts : List Token) :
    (bare ts).takeWhile p = bare (ts.takeWhile p) := by
  induction ts with
  | nil => rfl
  | cons t ts ih =>
    cases ht : t.isTrivia with
    | true =>
      rw [bare_cons_of_isTrivia ht, List.takeWhile_cons_of_pos (hskip t ht),
        bare_cons_of_isTrivia ht, ih]
    | false =>
      by_cases h : p t = true
      · rw [bare_cons_of_code ht, List.takeWhile_cons_of_pos h,
          List.takeWhile_cons_of_pos ((hp t).trans h), bare_cons_of_code ht, ih]
      · rw [List.takeWhile_cons_of_neg h, bare_cons_of_code ht,
          List.takeWhile_cons_of_neg ((hp t).symm ▸ h), bare_nil]

end Search

theorem isTrivia_of_mem_bare (h : t ∈ bare ts) : t.isTrivia = false := by
  obtain ⟨u, hu, rfl⟩ := List.mem_map.1 h
  simpa using (List.mem_filter.1 hu).2

theorem leadingTrivia_bare (ts : List Token) : leadingTrivia (bare ts) = [] :=
  (takeWhile_bare (fun _ => rfl) (fun _ h => h) ts).trans (bare_leadingTrivia ts)

/-- The bare text starts with the first token that carries syntax. -/
theorem significant_bare (ts : List Token) : significant (bare ts) = bare ts := by
  have hwhole := leadingTrivia_append_significant (bare ts)
  rwa [leadingTrivia_bare, List.nil_append] at hwhole

theorem bare_significant (ts : List Token) : bare (significant ts) = bare ts :=
  (dropWhile_bare (fun _ => rfl) (fun _ h => h) ts).symm.trans (significant_bare ts)

/-- Taking away the spacing in front of a text changes its layout only. -/
theorem bare_dropWhile_isSpacing (ts : List Token) :
    bare (ts.dropWhile Token.isSpacing) = bare ts := by
  have hspacing : bare (ts.takeWhile Token.isSpacing) = [] :=
    bare_eq_nil fun t ht => Token.isTrivia_of_isSpacing (of_mem_takeWhile ht)
  have hwhole := congrArg bare (List.takeWhile_append_dropWhile (p := Token.isSpacing) (l := ts))
  rwa [bare_append, hspacing, List.nil_append] at hwhole

/-! ### Trivia that read like no keyword -/

/-- No trivia of a text reads like a declaration keyword. -/
def Config.Skips (config : Config) (ts : List Token) : Prop :=
  ∀ t ∈ ts, t.isTrivia = true → config.isDeclarationKeyword t.text = false

theorem skips_nil : config.Skips [] := nofun

@[simp] theorem skips_cons_iff :
    config.Skips (t :: ts)
      ↔ (t.isTrivia = true → config.isDeclarationKeyword t.text = false) ∧ config.Skips ts :=
  List.forall_mem_cons

@[simp] theorem skips_append_iff :
    config.Skips (as ++ bs) ↔ config.Skips as ∧ config.Skips bs :=
  List.forall_mem_append

@[simp] theorem skips_reverse_iff : config.Skips ts.reverse ↔ config.Skips ts := by
  simp [Config.Skips]

/-- A blank, a line end or a comment starts like no name. -/
theorem Lexeme.isNameStart_of_isTrivia {c : Char} {cs : List Char} {l : Lexeme} {pos : Position}
    (h : Lexeme.next c cs = .ok l) (ht : (l.token c pos).isTrivia = true) :
    isNameStart c = false := by
  rw [Bool.eq_false_iff]
  intro hname
  rw [(Reading.word hname).next_eq] at h
  cases h
  rcases wordKind_eq (c :: (word cs).text) with hkind | hkind
  · simp [Lexeme.token, Token.isTrivia, Token.isSpacing, hkind] at ht
  · simp [Lexeme.token, Token.isTrivia, Token.isSpacing, hkind] at ht

theorem isNameStart_of_tokenizeAt {pos : Position} {cs : List Char}
    (h : tokenizeAt pos cs = .ok ts) :
    ∀ t ∈ ts, t.isTrivia = true → t.text.toList.head?.any isNameStart = false := by
  fun_induction tokenizeAt pos cs generalizing ts with
  | case1 =>
    cases h
    exact List.forall_mem_nil _
  | case2 => cases h
  | case3 pos c cs l hl ih =>
    obtain ⟨us, hus, rfl⟩ := map_eq_ok_iff.1 h
    rw [List.forall_mem_cons]
    refine ⟨fun ht => ?_, ih hus⟩
    rw [toList_token_text]
    exact Lexeme.isNameStart_of_isTrivia hl ht

/-- The trivia of a source text read like no declaration keyword: those start like names. -/
theorem skips_of_tokenize {source : String} (h : tokenize source = .ok ts) :
    Config.default.Skips ts := by
  intro t ht htrivia
  have hplain := isNameStart_of_tokenizeAt h t ht htrivia
  have hwords : ∀ word ∈ Config.default.declarationKeywords,
      word.toList.head?.any isNameStart = true := by
    decide
  rw [Config.isDeclarationKeyword, Bool.eq_false_iff]
  intro hmem
  rw [hwords t.text (List.contains_iff_mem.1 hmem)] at hplain
  cases hplain

/-! ### Colons of calls -/

/-- Trivia that read like no declaration keyword do not decide the role of a colon. -/
theorem decidedBy?_of_isTrivia (ht : t.isTrivia = true)
    (hk : config.isDeclarationKeyword t.text = false) (next? : Option Token) :
    ColonRole.decidedBy? config next? t = none := by
  have hbrace : Bracket.curly.opens t = false :=
    Bool.eq_false_iff.2 fun ho => Bool.false_ne_true ((isTrivia_of_opens ho).symm.trans ht)
  have hmark : isCallMark t = false := by
    rw [isCallMark, Bool.or_eq_false_iff, Bool.eq_false_iff, Bool.eq_false_iff]
    constructor <;> intro hm <;>
      exact Bool.false_ne_true
        ((isTrivia_of_is hm (by decide) (by decide) (by decide)).symm.trans ht)
  exact ColonRole.decidedBy?_eq_none_iff.2 ⟨hk, by rw [hbrace, Bool.false_and], hmark⟩

/-- The role of a colon does not depend on the layout in front of it. -/
theorem ofPreceding_bare (hs : config.Skips ts) (next? : Option Token) :
    ColonRole.ofPreceding config (next?.map Token.unplaced) (bare ts)
      = ColonRole.ofPreceding config next? ts := by
  induction ts generalizing next? with
  | nil => rfl
  | cons t ts ih =>
    rw [skips_cons_iff] at hs
    cases ht : t.isTrivia with
    | true =>
      rw [bare_cons_of_isTrivia ht, ColonRole.ofPreceding, decidedBy?_of_isTrivia ht (hs.1 ht),
        Option.getD_none, if_pos ht, ih hs.2]
    | false =>
      have hdecided : ColonRole.decidedBy? config (next?.map Token.unplaced) t.unplaced
          = ColonRole.decidedBy? config next? t := by
        cases next? <;> rfl
      rw [bare_cons_of_code ht, ColonRole.ofPreceding, ColonRole.ofPreceding, hdecided,
        Token.isTrivia_unplaced, ht, if_neg Bool.false_ne_true, if_neg Bool.false_ne_true]
      rw [← ih hs.2]
      rfl

theorem bare_equalsSign (written ts : List Token) :
    bare (equalsSign written ts) = [.symbol "="] := by
  have hgap :
      bare (if written.head?.any (fun t => !t.isWhitespace) then [.space] else []) = [] := by
    split <;> rfl
  have hsign : (Token.symbol "=").isTrivia = false := rfl
  rw [equalsSign, bare_append, hgap, bare_cons_of_code hsign, bare_gapBefore]
  rfl

section Calls

variable (hspace : config.isDeclarationKeyword Token.space.text = false)
include hspace

theorem skips_equalsSign (written ts : List Token) : config.Skips (equalsSign written ts) := by
  have hspaces : config.Skips [.space] := by simp [hspace, skips_nil]
  have hsign : (Token.symbol "=").isTrivia = false := rfl
  have hgap : config.Skips (gapBefore ts) := by
    rcases gapBefore_eq ts with h | h <;> rw [h]
    · exact skips_nil
    · exact hspaces
  rw [equalsSign, skips_append_iff, skips_cons_iff, hsign]
  refine ⟨?_, nofun, hgap⟩
  split
  · exact hspaces
  · exact skips_nil

/-- Behind tokens that differ in their layout only, the pass makes the same edits in a text and
    in the bare text. -/
theorem bare_nameArgumentsAfter {written written' : List Token} (hts : config.Skips ts)
    (hs : config.Skips written) (hs' : config.Skips written') (hw : bare written' = bare written) :
    (nameArgumentsAfter config written' (bare ts)).bare
      = (nameArgumentsAfter config written ts).bare := by
  induction ts generalizing written written' with
  | nil => rfl
  | cons t ts ih =>
    rw [skips_cons_iff] at hts
    cases ht : t.isTrivia with
    | true =>
      have hcolon : isColon t = false :=
        Bool.eq_false_iff.2 fun hc => Bool.false_ne_true
          ((isTrivia_of_is hc (by decide) (by decide) (by decide)).symm.trans ht)
      rw [bare_cons_of_isTrivia ht, nameArgumentsAfter, hcolon, Bool.false_and,
        if_neg Bool.false_ne_true, Edited.bare_cons_of_isTrivia ht]
      exact ih hts.2 (skips_cons_iff.2 ⟨hts.1, hs⟩) hs' (hw.trans (bare_cons_of_isTrivia ht _).symm)
    | false =>
      -- Both runs guess the same role.
      have hrole : ColonRole.ofPreceding config (some t.unplaced) written'
          = ColonRole.ofPreceding config (some t) written := by
        rw [← ofPreceding_bare hs, ← ofPreceding_bare hs', hw]
        rfl
      have hcolon : isColon t.unplaced = isColon t := rfl
      have ht' : t.unplaced.isTrivia = false := ht
      rw [bare_cons_of_code ht, nameArgumentsAfter, nameArgumentsAfter, hrole, hcolon]
      split
      · have hbare : bare ((equalsSign written' (bare ts)).reverse ++ written')
            = bare ((equalsSign written ts).reverse ++ written) := by
          rw [bare_append, bare_append, bare_reverse, bare_reverse, bare_equalsSign,
            bare_equalsSign, hw]
        rw [Edited.bare_counted, Edited.bare_counted, Edited.bare_append, Edited.bare_append,
          bare_equalsSign, bare_equalsSign, ih hts.2 _ _ hbare]
        · simp [skips_equalsSign hspace, hs]
        · simp [skips_equalsSign hspace, hs']
      · have hbare : bare (t.unplaced :: written') = bare (t :: written) := by
          rw [bare_cons_of_code ht, bare_cons_of_code ht', hw]
          rfl
        rw [Edited.bare_cons_of_code ht, Edited.bare_cons_of_code ht', ih hts.2 _ _ hbare]
        · rfl
        · simp [ht, hs]
        · simp [ht, hs']

/-- **The pass over call-site colons is independent of the layout**: its edits, and what it leaves
    apart from the layout, are those it makes in the bare text. -/
theorem bare_nameArguments (h : config.Skips ts) :
    (nameArguments config (bare ts)).bare = (nameArguments config ts).bare :=
  bare_nameArgumentsAfter hspace h skips_nil skips_nil rfl

end Calls

end Kotlinize
