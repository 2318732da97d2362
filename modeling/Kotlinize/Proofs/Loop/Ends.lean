import Kotlinize.Proofs.Loop.Arrows
import Kotlinize.Proofs.Loop.Properties
import Kotlinize.Proofs.Loop.Setters

namespace Kotlinize

/-!
# The loops end

Four stages run in loops that edit the text they go over.  No index measures them: one removes
tokens in front of its index and writes a line behind it, the others insert tokens in front of their
next search.  Each has a measure of its own, and none of what they insert, the words of the
configuration included, is ever found again.

* `ends_setterStep_start` and the like — each loop ends with the outcome of its stage, which counts
  no more edits than there were places for them in the text that it started from.
* `loops_end` — all four.
-/

/-! ### Each loop from the start of a text -/

/-- Restricted setters: no more edits than places where `(`, `set` and `)` follow each other. -/
theorem ends_setterStep_start (config : Config) (ts : List Token) :
    Ends (setterStep config) (.start ts) (relocateSetters config ts) ∧
      (relocateSetters config ts).count ≤ setCount ts := by
  have hends : Ends (setterStep config) (.start ts) (relocateSetters config ts) := by
    simpa [Cursor.start, Edited.append, Edited.counted, relocateSetters] using
      ends_setterStep config [] none ts 0 (.inl rfl) (nonePassed_nil ts)
  have hcount := hends.count_le fun _ _ => setCount_setterStep
  exact ⟨hends, by simpa [Cursor.start] using hcount⟩

/-- Computed properties: no more edits than variable keywords. -/
theorem ends_computedStep_start (config : Config) (ts : List Token) :
    Ends (computedStep config) (.start ts) (suffixAccessors config ts) ∧
      (suffixAccessors config ts).count ≤ variableCount ts := by
  have hends : Ends (computedStep config) (.start ts) (suffixAccessors config ts) := by
    simpa [Cursor.start, Edited.append, Edited.counted] using ends_computedStep config [] ts 0
  have hcount := hends.count_le (fun s s' h => by
    obtain ⟨hlt, hle⟩ := variableCount_computedStep h
    show s'.count + variableCount s'.ahead ≤ s.count + variableCount s.ahead
    omega)
  exact ⟨hends, by simpa [Cursor.start, Cursor.ahead] using hcount⟩

/-- Late-initialised properties: no more edits than variable keywords. -/
theorem ends_lateInitStep_start (ts : List Token) :
    Ends lateInitStep (.start ts) (markLateInit ts) ∧
      (markLateInit ts).count ≤ variableCount ts := by
  have hends : Ends lateInitStep (.start ts) (markLateInit ts) := by
    simpa [Cursor.start, Edited.append, Edited.counted] using ends_lateInitStep [] ts 0
  have hcount := hends.count_le (fun s s' h => by
    obtain ⟨hlt, heq⟩ := variableCount_lateInitStep h
    show s'.count + variableCount s'.ahead ≤ s.count + variableCount s.ahead
    omega)
  exact ⟨hends, by simpa [Cursor.start, Cursor.ahead] using hcount⟩

/-- Return arrows: no more edits than function keywords. -/
theorem ends_arrowStep_start (config : Config) (ts : List Token) :
    Ends (arrowStep config) (.start ts) (arrowsToColons config ts) ∧
      (arrowsToColons config ts).count ≤ ts.countP isFunctionKeyword := by
  have hends : Ends (arrowStep config) (.start ts) (arrowsToColons config ts) := by
    simpa [Cursor.start, Edited.append, Edited.counted] using ends_arrowStep config [] ts 0
  have hcount := hends.count_le fun _ _ => functions_arrowStep
  exact ⟨hends, by simpa [Cursor.start, Cursor.ahead] using hcount⟩

/-! ### All loops -/

/-- **The loops end**, on every text and with every configuration.  Each iteration over restricted
    setters leaves fewer tokens behind the index, each iteration over properties leaves fewer
    variable keywords ahead, and the loop over return arrows goes on behind the keyword whose arrow
    it has replaced, where there is less left too.  So each loop ends with the outcome of its stage,
    and counts at most the `(`, `set`, `)` in a row, the variable keywords or the function keywords
    of the text that it started from. -/
theorem loops_end (config : Config) :
    (∀ s s', setterStep config s = some s' →
      s'.tokens.length - s'.index < s.tokens.length - s.index) ∧
    (∀ s s', computedStep config s = some s' ∨ lateInitStep s = some s' →
      variableCount s'.ahead < variableCount s.ahead) ∧
    (∀ s s', arrowStep config s = some s' →
      s'.tokens.length - s'.index < s.tokens.length - s.index ∧ s.index < s'.index ∧
      (s'.count = s.count ∨ s.tokens[s.index]?.any isFunctionKeyword = true ∧
        s'.tokens[s.index]? = s.tokens[s.index]?)) ∧
    ∀ ts,
      (Ends (setterStep config) (.start ts) (relocateSetters config ts) ∧
        (relocateSetters config ts).count ≤ setCount ts) ∧
      (Ends (computedStep config) (.start ts) (suffixAccessors config ts) ∧
        (suffixAccessors config ts).count ≤ variableCount ts) ∧
      (Ends lateInitStep (.start ts) (markLateInit ts) ∧
        (markLateInit ts).count ≤ variableCount ts) ∧
      (Ends (arrowStep config) (.start ts) (arrowsToColons config ts) ∧
        (arrowsToColons config ts).count ≤ ts.countP isFunctionKeyword) := by
  refine ⟨fun _ _ => length_sub_setterStep, fun _ _ h => ?_,
    fun _ _ h => ⟨length_sub_arrowStep h, lt_arrowStep h⟩, fun ts =>
      ⟨ends_setterStep_start config ts, ends_computedStep_start config ts,
        ends_lateInitStep_start ts, ends_arrowStep_start config ts⟩⟩
  rcases h with h | h
  · exact (variableCount_computedStep h).1
  · exact (variableCount_lateInitStep h).1

/-- Six line ends between a modifier and its `(set)`: the index gets smaller, and less is left. -/
theorem loops_end_setter_far_from_modifier :
    let s : Cursor := ⟨.keyword "private" :: List.replicate 6 .newline
      ++ [Bracket.round.openToken, .identifier "set", Bracket.round.closeToken,
        .identifier "a"], 8, 0⟩
    ∃ s', setterStep .default s = some s' ∧ s'.index < s.index ∧
      s'.tokens.length - s'.index < s.tokens.length - s.index := by
  intro s
  have hstep : setterStep .default s = some ⟨[.identifier "a", .newline, .whitespace "\t",
      .keyword "private", .space, .identifier "set"], 6, 1⟩ := by
    decide
  exact ⟨_, hstep, by decide, (loops_end .default).1 _ _ hstep⟩

end Kotlinize
