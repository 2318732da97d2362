import Kotlinize.Proofs.Comment.Edits

namespace Kotlinize

/-!
# Runs and line comments

The pass over return arrows takes away the spacing in front of an arrow, line ends included.
Behind a line comment its colon, and the result with it, is a part of the comment.

* `returnSignatures` — what the pass over return arrows rewrites.
* `Signature.endsInComment` — whether a comment in front of the arrow swallows the colon.
* `lineCommentsClose_applyAll_iff` — no code moves into a comment in any stage exactly if no
  arrow that is rewritten follows a line comment.
-/

variable {config : Config} {inside : Bool}

/-! ### Return arrows -/

/-- Whether a line comment is the last thing in front of the arrow, spacing apart. -/
def Signature.endsInComment (s : Signature) : Bool :=
  (dropSpacingEnd s.before).getLast?.any isLineComment

/-- The signatures that the pass over return arrows cuts, one after another. -/
def returnSignatures (config : Config) : List Token → List Signature
  | [] => []
  | t :: ts =>
    if isFunctionKeyword t then
      match _h : signature? config ts with
      | some s => s :: returnSignatures config s.result
      | none => returnSignatures config ts
    else returnSignatures config ts
termination_by ts => ts.length
decreasing_by
  · exact Nat.lt_succ_of_lt (length_result_lt _h)
  · exact Nat.lt_succ_self _
  · exact Nat.lt_succ_self _

theorem returnSignatures_of_some {t : Token} {ts : List Token} {s : Signature}
    (hk : isFunctionKeyword t = true) (hs : signature? config ts = some s) :
    returnSignatures config (t :: ts) = s :: returnSignatures config s.result := by
  rw [returnSignatures, if_pos hk]
  split
  · rename_i s' hs'
    rw [hs] at hs'
    cases hs'
    rfl
  · rename_i hs'
    rw [hs] at hs'
    cases hs'

theorem returnSignatures_of_none {t : Token} {ts : List Token} (hs : signature? config ts = none) :
    returnSignatures config (t :: ts) = returnSignatures config ts := by
  rw [returnSignatures]
  split
  · split
    · rename_i s' hs'
      rw [hs] at hs'
      cases hs'
    · rfl
  · rfl

/-- The pass rewrites each of them. -/
theorem length_returnSignatures (ts : List Token) :
    (returnSignatures config ts).length = (arrowsToColons config ts).count := by
  fun_induction arrowsToColons config ts with
  | case1 => rw [returnSignatures, Edited.count_nil, List.length_nil]
  | case2 t ts hk s hs ih =>
    rw [returnSignatures_of_some hk hs, List.length_cons, ih, Nat.add_comm]
    rfl
  | case3 t ts hk hs ih => rw [returnSignatures_of_none hs, ih, Edited.count_cons]
  | case4 t ts hk ih => rw [returnSignatures, if_neg hk, ih, Edited.count_cons]

/-- Behind a text that does not end in spacing, the reading is inside a comment if the text ends
    in one. -/
theorem readComments_eq_endsInComment {ts : List Token} {inside' : Bool}
    (h : readComments false ts = some inside')
    (hl : ∀ t, ts.getLast? = some t → t.isSpacing = false) :
    inside' = ts.getLast?.any isLineComment := by
  rcases List.eq_nil_or_concat ts with rfl | ⟨as, t, rfl⟩
  · cases h
    rfl
  · rw [List.concat_eq_append] at h hl ⊢
    rw [List.getLast?_concat] at hl ⊢
    obtain ⟨i, -, h⟩ := readComments_append_eq_some_iff.1 h
    rw [readComments_cons, commentStep_of_not_isSpacing (hl t rfl)] at h
    cases i with
    | true => cases h
    | false =>
      cases h
      rfl

/-- A signature, read from its function keyword on: the text without the spacing in front of its
    arrow can be read too, and ends inside a comment if a comment precedes the arrow. -/
theorem readComments_dropSpacingEnd {s : Signature} (h : readComments false s.before = some false) :
    readComments false (dropSpacingEnd s.before) = some s.endsInComment := by
  obtain ⟨spacing, -, hb⟩ := exists_eq_dropSpacingEnd_append s.before
  rw [hb] at h
  obtain ⟨i, hr, -⟩ := readComments_append_eq_some_iff.1 h
  rw [hr, readComments_eq_endsInComment hr fun t => isSpacing_of_getLast?_dropSpacingEnd]
  rfl

/-- **The pass over return arrows**, on a text that can be read, leaves a text that can be read
    exactly if no arrow that it rewrites follows a line comment. -/
theorem isSome_readComments_arrowsToColons {ts : List Token}
    (h : (readComments inside ts).isSome = true) :
    (readComments inside (arrowsToColons config ts).tokens).isSome = true
      ↔ ∀ s ∈ returnSignatures config ts, s.endsInComment = false := by
  fun_induction arrowsToColons config ts generalizing inside with
  | case1 =>
    rw [returnSignatures]
    exact ⟨fun _ s hs => (by cases hs), fun _ => rfl⟩
  | case2 t ts hk s hs ih =>
    have ht := isTrivia_of_is hk (by decide) (by decide) (by decide)
    have harrow := isTrivia_of_is (isArrow_of_signature? hs) (by decide) (by decide) (by decide)
    have hcolon : (Token.symbol ":").isTrivia = false := rfl
    rw [readComments_code ht] at h
    cases inside with
    | true => cases h
    | false =>
      rw [if_neg Bool.false_ne_true, ← whole_of_signature? hs, Signature.whole,
        readComments_append_code harrow] at h
      obtain ⟨hbefore, hresult⟩ := h
      -- The colon is code, so all depends on how the text in front of it ends.
      have hout : (readComments false ((((arrowsToColons config s.result).append
            (t :: (dropSpacingEnd s.before ++ .symbol ":" :: gapBefore s.result))).counted
            1).tokens)).isSome = true
          ↔ s.endsInComment = false
            ∧ (readComments false (arrowsToColons config s.result).tokens).isSome = true := by
        rw [Edited.tokens_counted, Edited.tokens_append, List.cons_append, List.append_assoc,
          List.cons_append, readComments_code ht, if_neg Bool.false_ne_true,
          readComments_append_code hcolon, readComments_dropSpacingEnd hbefore,
          readComments_gapBefore, Option.some.injEq]
      rw [hout, returnSignatures_of_some hk hs, ih hresult]
      constructor
      · rintro ⟨hc, hrest⟩ u hu
        rcases List.mem_cons.1 hu with rfl | hu
        · exact hc
        · exact hrest u hu
      · intro hall
        exact ⟨hall s List.mem_cons_self, fun u hu => hall u (List.mem_cons_of_mem _ hu)⟩
  | case3 t ts hk hs ih =>
    obtain ⟨inside', hstep, hts⟩ := isSome_readComments_cons_iff.1 h
    rw [returnSignatures_of_none hs, Edited.tokens_cons, readComments_cons, hstep]
    exact ih hts
  | case4 t ts hk ih =>
    obtain ⟨inside', hstep, hts⟩ := isSome_readComments_cons_iff.1 h
    rw [returnSignatures, if_neg hk, Edited.tokens_cons, readComments_cons, hstep]
    exact ih hts

/-! ### Whole runs -/

theorem Stage.lineCommentsClose_applyAll {stages : List Stage} (hs : .returnArrows ∉ stages)
    {ts : List Token} (h : LineCommentsClose ts) :
    LineCommentsClose (Stage.applyAll config stages ts) :=
  Stage.applyAll_preserves stages
    (fun _ hmem _ _ hrw ha => Rewrite.lineCommentsClose (fun heq => hs (heq ▸ hmem)) hrw ha) ts h

theorem lineCommentsClose_arrowsToColons_iff {ts : List Token} (h : LineCommentsClose ts) :
    LineCommentsClose (arrowsToColons config ts).tokens
      ↔ ∀ s ∈ returnSignatures config ts, s.endsInComment = false := by
  rw [lineCommentsClose_iff_readComments] at h ⊢
  exact isSome_readComments_arrowsToColons h

/-- **Only a return arrow moves code into a line comment.**  From the tokens of a source text on,
    and with any configuration, a line ends behind every line comment after each of the stages,
    exactly if no return arrow that is rewritten follows a line comment: the pass takes the
    line end between the two away and puts its colon into the comment. -/
theorem lineCommentsClose_applyAll_iff {source : String} {ts : List Token}
    (h : tokenize source = .ok ts) :
    (∀ done, done <+: Stage.all → LineCommentsClose (Stage.applyAll config done ts))
      ↔ ∀ s ∈ returnSignatures config
          (Stage.applyAll config [.namedArguments, .parameterLabels] ts),
        s.endsInComment = false := by
  have hstart := lineCommentsClose_of_tokenize h
  have hlabels : LineCommentsClose
      (Stage.applyAll config [.namedArguments, .parameterLabels] ts) :=
    Stage.lineCommentsClose_applyAll (by decide) hstart
  rw [← lineCommentsClose_arrowsToColons_iff hlabels]
  constructor
  · intro hall
    exact hall [.namedArguments, .parameterLabels, .returnArrows] (by decide)
  · -- Every other stage keeps the property, so the pass over arrows alone decides.
    intro harrows done hdone
    obtain ⟨left, hleft⟩ := hdone
    have hsplit : done ++ left = [.namedArguments, .parameterLabels]
        ++ [.returnArrows, .computedProperties, .restrictedSetters, .lateInitProperties] := hleft
    rcases List.append_eq_append_iff.1 hsplit with ⟨as, has, -⟩ | ⟨cs, rfl, hcs⟩
    · -- The arrows are still to come.
      refine Stage.lineCommentsClose_applyAll (fun hmem => ?_) hstart
      have hin : Stage.returnArrows ∈ done ++ as := List.mem_append_left _ hmem
      rw [← has] at hin
      exact absurd hin (by decide)
    · rw [Stage.applyAll_append]
      cases cs with
      | nil => exact hlabels
      | cons stage cs =>
        obtain ⟨rfl, hrest⟩ := List.cons.inj hcs
        rw [Stage.applyAll_cons]
        refine Stage.lineCommentsClose_applyAll (fun hmem => ?_) harrows
        have hin : Stage.returnArrows ∈ cs ++ left := List.mem_append_left _ hmem
        rw [show cs ++ left = _ from hrest.symm] at hin
        exact absurd hin (by decide)

/-- A comment behind the result is not touched. -/
theorem lineCommentsClose_applyAll_comment_behind_result :
    ∃ ts, tokenize "func f()->I//c" = .ok ts ∧
      ∀ done, done <+: Stage.all → LineCommentsClose (Stage.applyAll .default done ts) := by
  have hsigs : ((tokenize "func f()->I//c").toOption.any fun ts => (returnSignatures .default
      (Stage.applyAll .default [.namedArguments, .parameterLabels] ts)).all
        fun s => !s.endsInComment) = true := by
    cbv
  cases h : tokenize "func f()->I//c" with
  | error e =>
    rw [h] at hsigs
    cases hsigs
  | ok ts =>
    rw [h] at hsigs
    refine ⟨ts, rfl, (lineCommentsClose_applyAll_iff h).2 fun s hs => ?_⟩
    simpa using List.all_eq_true.1 hsigs s hs

/-- A comment in front of the arrow swallows the colon, and the result with it. -/
theorem not_lineCommentsClose_comment_before_arrow :
    ¬ ∀ (config : Config) (source : String) (ts : List Token),
      config.indentUnit.toList.all isBlank = true → tokenize source = .ok ts →
        ∀ done, done <+: Stage.all → LineCommentsClose (Stage.applyAll config done ts) := by
  intro hall
  have hlost : ((tokenize "func f()//c\n->I").toOption.all fun ts =>
      (readComments false (Stage.applyAll .default
        [.namedArguments, .parameterLabels, .returnArrows] ts)).isSome) = false := by
    cbv
  cases h : tokenize "func f()//c\n->I" with
  | error e =>
    rw [h] at hlost
    cases hlost
  | ok ts =>
    have hclose := hall .default _ ts (by decide) h
      [.namedArguments, .parameterLabels, .returnArrows] (by decide)
    rw [lineCommentsClose_iff_readComments] at hclose
    rw [h] at hlost
    rw [show (readComments false _).isSome = false from hlost] at hclose
    cases hclose

end Kotlinize
