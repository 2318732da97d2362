import Kotlinize.Proofs.Lexemes
import Kotlinize.Proofs.Origin.Unmade
import Kotlinize.Proofs.ScopeBalance

namespace Kotlinize

/-!
# Line ends

A text whose line ends all read the same should keep them so.  The pass over setters writes the
only new line ends: a copy of the one behind the declaration, or a line feed if no line end
follows.  In a text with other line ends that line feed is a stranger.

* `LineEnds` — all line ends of a text read the same.
* `movedTails` — what follows the lines of the declarations whose setters the pass moves.
* `lineEnds_relocateSettersAfter_iff` — the pass keeps the line ends of a text alike unless one of
  these declarations stands on the last line.
* `lineEnds_convertTokens_iff` — and so does a run.
-/

variable {config : Config} {stage : Stage} {text : String} {t : Token} {ts as bs : List Token}

/-! ### Texts whose line ends read the same -/

/-- All line ends of a text read the same. -/
def LineEnds (text : String) (ts : List Token) : Prop :=
  ∀ t ∈ ts, t.isLinebreak = true → t.text = text

instance : Decidable (LineEnds text ts) :=
  inferInstanceAs (Decidable (∀ t ∈ ts, t.isLinebreak = true → t.text = text))

@[simp] theorem lineEnds_nil : LineEnds text [] := nofun

@[simp] theorem lineEnds_cons_iff :
    LineEnds text (t :: ts) ↔ (t.isLinebreak = true → t.text = text) ∧ LineEnds text ts :=
  List.forall_mem_cons

@[simp] theorem lineEnds_append_iff :
    LineEnds text (as ++ bs) ↔ LineEnds text as ∧ LineEnds text bs :=
  List.forall_mem_append

theorem LineEnds.of_sublist (ha : LineEnds text as)
    (h : (bs.filter Token.isLinebreak).Sublist (as.filter Token.isLinebreak)) :
    LineEnds text bs := by
  intro t ht hl
  have hmem := h.subset (List.mem_filter.2 ⟨ht, hl⟩)
  exact ha t (List.mem_filter.1 hmem).1 hl

theorem unmade_isLinebreak : Unmade Token.isLinebreak where
  space := by decide
  identifier _ := rfl
  symbol _ := rfl
  opener := by decide
  closer := by decide
  constant := by decide

/-- Every stage but the one for setters keeps the line ends of a text alike. -/
theorem Stage.lineEnds_applyAll {stages : List Stage} (hs : .restrictedSetters ∉ stages)
    (h : LineEnds text ts) : LineEnds text (Stage.applyAll config stages ts) :=
  Stage.applyAll_preserves stages (fun _ hmem _ _ hrw ha =>
    ha.of_sublist (hrw.filter_sublist unmade_isLinebreak (fun heq => hs (heq ▸ hmem))
      fun _ => rfl)) ts h

/-! ### The pass over setters -/

/-- What follows the line of each declaration whose setter the pass moves. -/
def movedTails : List Token → List (List Token)
  | [] => []
  | t :: ts =>
    match _h : if t.isKeyword then restricted? ts else none with
    | some declaration =>
      let after := declaration.dropWhile fun u => !u.isLinebreak
      after :: movedTails after
    | none => movedTails ts
termination_by ts => ts.length
decreasing_by
  · split at _h
    · have := length_lt_of_restricted? _h
      have := (List.dropWhile_sublist (fun u : Token => !u.isLinebreak)
        (l := declaration)).length_le
      simp only [List.length_cons]
      omega
    · cases _h
  · exact Nat.lt_succ_self _

theorem movedTails_of_eq_some {declaration : List Token}
    (h : (if t.isKeyword then restricted? ts else none) = some declaration) :
    movedTails (t :: ts)
      = (declaration.dropWhile fun u => !u.isLinebreak)
        :: movedTails (declaration.dropWhile fun u => !u.isLinebreak) := by
  rw [movedTails]
  split <;> simp_all

theorem movedTails_of_eq_none
    (h : (if t.isKeyword then restricted? ts else none) = none) :
    movedTails (t :: ts) = movedTails ts := by
  rw [movedTails]
  split <;> simp_all

/-- The line of a setter ends the line in front of it as the line behind it is ended, or by a line
    feed. -/
theorem lineEnds_setterLine_iff (head? : Option Token) {modifier : Token} {after : List Token}
    (hm : modifier.isKeyword = true) (ha : after.head?.all Token.isLinebreak = true)
    (h : LineEnds text after) :
    LineEnds text (setterLine config head? modifier after) ↔ text = "\n" ∨ after ≠ [] := by
  have hmodifier : modifier.isLinebreak = false := by
    rw [Token.isKeyword, beq_iff_eq] at hm
    simp [Token.isLinebreak, hm]
  have hblank : ∀ blank, (Token.whitespace blank).isLinebreak = false := fun _ => rfl
  have hset : (Token.identifier "set").isLinebreak = false := rfl
  have hspace : Token.space.isLinebreak = false := rfl
  cases after with
  | nil =>
    have hnewline : Token.newline.isLinebreak = true := rfl
    have htext : Token.newline.text = "\n" := rfl
    simpa [setterLine, hmodifier, hblank, hset, hspace, hnewline, htext] using
      eq_comm (a := "\n") (b := text)
  | cons lineEnd after =>
    rw [lineEnds_cons_iff] at h
    simpa [setterLine, hmodifier, hblank, hset, hspace] using h.1

/-- **The pass over setters keeps the line ends of a text alike** if they are line feeds, or if
    a line end follows each declaration whose setter it moves, and not otherwise. -/
theorem lineEnds_relocateSettersAfter_iff (head? : Option Token) (h : LineEnds text ts) :
    LineEnds text (relocateSettersAfter config head? ts).tokens
      ↔ text = "\n" ∨ [] ∉ movedTails ts := by
  fun_induction relocateSettersAfter config head? ts with
  | case1 => simp [movedTails]
  | case2 head? t ts declaration hr line after ih =>
    obtain ⟨hm, hd⟩ : t.isKeyword = true ∧ restricted? ts = some declaration :=
      Option.ite_none_right_eq_some.1 hr
    -- Line and rest are a part of the text.
    obtain ⟨before, opener, word, closer, behind, rfl, -⟩ := restricted?_eq_some hd
    simp only [lineEnds_cons_iff, lineEnds_append_iff] at h
    have hdeclaration : LineEnds text declaration := h.2.2.2.2.2.2
    rw [← List.takeWhile_append_dropWhile (p := fun u : Token => !u.isLinebreak)
      (l := declaration), lineEnds_append_iff] at hdeclaration
    have hend : after.head?.all Token.isLinebreak = true := head?_dropWhile_isLinebreak declaration
    have hline : LineEnds text (setterLine config head? t after) ↔ text = "\n" ∨ after ≠ [] :=
      lineEnds_setterLine_iff head? hm hend hdeclaration.2
    rw [movedTails_of_eq_some hr, Edited.tokens_counted, Edited.tokens_append,
      lineEnds_append_iff, lineEnds_append_iff, hline, ih hdeclaration.2, List.mem_cons]
    have hcut : LineEnds text line := hdeclaration.1
    show _ ↔ text = "\n" ∨ ¬ ([] = after ∨ [] ∈ movedTails after)
    rw [not_or, or_and_left, eq_comm (a := ([] : List Token))]
    exact and_congr_left fun _ => and_iff_right hcut
  | case3 head? t ts hr ih =>
    rw [lineEnds_cons_iff] at h
    rw [movedTails_of_eq_none hr, Edited.tokens_cons, lineEnds_cons_iff, ih h.2]
    exact and_iff_right h.1

/-! ### Whole runs -/

/-- A mark that is taken away ends no line. -/
theorem lineEnds_markLateInit_iff :
    LineEnds text (markLateInit ts).tokens ↔ LineEnds text ts := by
  fun_induction markLateInit ts with
  | case1 => rfl
  | case2 t ts us hu ih =>
    obtain ⟨-, hu⟩ : isVariableKeyword t = true ∧ unmarked? ts = some us :=
      Option.ite_none_right_eq_some.1 hu
    obtain ⟨n, type, mark, rest, -, rfl, rfl, -, -, hm⟩ := unmarked?_eq_some hu
    have hmark : mark.isLinebreak = false := by
      simp [Token.isLinebreak, (Token.is_iff.1 hm).1]
    have hmodifier : (Token.keyword "lateinit").isLinebreak = false := rfl
    have hspace : Token.space.isLinebreak = false := rfl
    simp only [lineEnds_append_iff] at ih
    simp [ih, lateInitModifier, hmodifier, hspace, hmark]
  | case3 t ts _ ih => simp [ih]

/-- **Line ends keep their style unless a moved setter ends the text.**  On every list of tokens
    whose line ends read the same, and with any configuration: after a run all line ends read so
    still if and only if they are line feeds or, in what the pass over setters finds, a line end
    follows each declaration whose setter it moves. -/
theorem lineEnds_convertTokens_iff (config : Config) {ts : List Token} (h : LineEnds text ts) :
    ∃ o, convertTokens config ts = .ok o ∧
      (LineEnds text o.tokens ↔ text = "\n" ∨ [] ∉ movedTails (Stage.applyAll config
        [.namedArguments, .parameterLabels, .returnArrows, .computedProperties] ts)) := by
  obtain ⟨report, hrun, -⟩ := convertTokens_eq_ok config ts
  refine ⟨_, hrun, ?_⟩
  have hfound : LineEnds text (Stage.applyAll config
      [.namedArguments, .parameterLabels, .returnArrows, .computedProperties] ts) :=
    Stage.lineEnds_applyAll (by decide) h
  exact lineEnds_markLateInit_iff.trans (lineEnds_relocateSettersAfter_iff none hfound)

/-- A declaration with a line behind it: both line ends of the result are those of its text. -/
theorem lineEnds_convertTokens_line_behind :
    ∃ ts o, tokenize "private(set) var a:A\r\nb" = .ok ts ∧
      convertTokens .default ts = .ok o ∧
      render o.tokens = "var a:A\r\n\tprivate set\r\nb" ∧
      LineEnds "\r\n" o.tokens := by
  have hrun : ((tokenize "private(set) var a:A\r\nb").toOption.bind fun ts =>
      ((convertTokens .default ts).toOption).map fun o =>
        (decide (LineEnds "\r\n" ts), render o.tokens,
          (movedTails (Stage.applyAll .default
            [.namedArguments, .parameterLabels, .returnArrows, .computedProperties] ts)).all
            fun tail => !tail.isEmpty))
        = some (true, "var a:A\r\n\tprivate set\r\nb", true) := by
    cbv
  obtain ⟨ts, hts, hvalue⟩ := Option.bind_eq_some_iff.1 hrun
  obtain ⟨o, ho, hall⟩ := Option.map_eq_some_iff.1 hvalue
  simp only [Prod.mk.injEq, decide_eq_true_eq] at hall
  obtain ⟨hends, hrender, htails⟩ := hall
  obtain ⟨o', ho', hiff⟩ := lineEnds_convertTokens_iff .default hends
  obtain rfl : o' = o := Except.ok.inj (ho'.symm.trans (eq_ok_of_toOption ho))
  refine ⟨ts, o', eq_ok_of_toOption hts, ho', hrender, hiff.2 (.inr fun hnil => ?_)⟩
  exact Bool.noConfusion (List.all_eq_true.1 htails [] hnil)

/-- **A setter on the last line brings a line feed** into a text whose line ends are others. -/
theorem not_lineEnds_setter_on_last_line :
    ¬ ∀ (config : Config) (source : String) (ts : List Token) (text : String),
      tokenize source = .ok ts → (∃ t ∈ ts, t.isLinebreak = true) → LineEnds text ts →
      ∀ o, convertTokens config ts = .ok o → LineEnds text o.tokens := by
  intro hclaim
  have hrun : ((tokenize "b\r\nprivate(set) var a:A").toOption.bind fun ts =>
      ((convertTokens .default ts).toOption).map fun o =>
        (ts.any Token.isLinebreak, decide (LineEnds "\r\n" ts),
          decide (LineEnds "\r\n" o.tokens))) = some (true, true, false) := by
    cbv
  obtain ⟨ts, hts, hvalue⟩ := Option.bind_eq_some_iff.1 hrun
  obtain ⟨o, ho, hall⟩ := Option.map_eq_some_iff.1 hvalue
  simp only [Prod.mk.injEq, decide_eq_true_eq, decide_eq_false_iff_not] at hall
  obtain ⟨hany, hends, hnot⟩ := hall
  exact hnot (hclaim _ _ ts _ (eq_ok_of_toOption hts) (List.any_eq_true.1 hany) hends o
    (eq_ok_of_toOption ho))

end Kotlinize
