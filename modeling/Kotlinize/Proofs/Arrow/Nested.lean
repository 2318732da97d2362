import Kotlinize.Proofs.Arrow.Colons
import Kotlinize.Source.Tokenize

namespace Kotlinize

/-!
# Functions inside the signature of another

The pass goes on behind the arrow that it has replaced, so a function whose keyword stands between
the keyword and the arrow of another one is passed over.  Most often it stands in a closure that is
the default value of a parameter.

* `BecomesColon` — whether a colon stands for an arrow after the pass.
* `mem_spansApart_iff` — the spans that are taken are those that start in none of the others taken.
* `becomesColon_iff` — which return arrows become colons.
* `not_becomesColon_default_argument` — a function in a default value keeps its arrow.
-/

variable {config : Config} {ts : List Token} {i a : Nat}

/-- Whether a colon stands for the token at an index after the pass over return arrows.  The pass
    moves spacing only, so the token's place is counted without it. -/
def BecomesColon (config : Config) (ts : List Token) (i : Nat) : Prop :=
  (unspaced (arrowsToColons config ts).tokens)[(unspaced (ts.take i)).length]?
    = some (.symbol ":")

/-- Of all return arrows, those of the functions that are taken become colons. -/
theorem becomesColon_iff_mem (h : returnArrow? config ts i = some a) :
    BecomesColon config ts a ↔ a ∈ arrowsOf (takenSpans config ts) := by
  obtain ⟨t, ht, harrow⟩ := (Option.any_eq_true _ _).1 (span_bounds h).2.2
  have hne : t ≠ .symbol ":" := by
    rintro rfl
    exact absurd harrow (by decide)
  rw [BecomesColon, (arrowsToColons_eq config ts).1, getElem?_unspaced_colonSlots
    (fun _ => isArrow_of_mem_arrowsOf) ht (isSpacing_of_isArrow harrow), Option.some.injEq]
  by_cases hmem : a ∈ arrowsOf (takenSpans config ts)
  · simp [hmem]
  · simp [hmem, hne]

/-- **Which spans are taken.**  Of spans in the order of the text, those are taken that start
    inside none of the others that are taken. -/
theorem mem_spansApart_iff {start : Nat} {spans : List (Nat × Nat)} {span : Nat × Nat}
    (horder : spans.Pairwise fun s s' => s.1 < s'.1) (hspans : ∀ s ∈ spans, s.1 ≤ s.2) :
    span ∈ spansApart start spans
      ↔ span ∈ spans ∧ start ≤ span.1 ∧
        ∀ s ∈ spansApart start spans, ¬ (s.1 < span.1 ∧ span.1 ≤ s.2) := by
  induction spans generalizing start with
  | nil => simp [spansApart]
  | cons first spans ih =>
    obtain ⟨hfirst, horder⟩ := List.pairwise_cons.1 horder
    rw [List.forall_mem_cons] at hspans
    rw [spansApart]
    split
    · rename_i hstart
      have hlater := @ih (first.2 + 1) horder hspans.2
      rw [List.mem_cons, hlater, List.mem_cons, List.forall_mem_cons]
      constructor
      · rintro (rfl | ⟨hmem, hle, hnone⟩)
        · -- The first one starts in front of all the others that are taken.
          refine ⟨.inl rfl, hstart, by omega, fun s hs => ?_⟩
          have hs' := (mem_spansApart hspans.2 hs).2
          omega
        · exact ⟨.inr hmem, by omega, by omega, hnone⟩
      · rintro ⟨rfl | hmem, hle, hfree, hnone⟩
        · exact .inl rfl
        · have hlt := hfirst span hmem
          exact .inr ⟨hmem, by omega, hnone⟩
    · rename_i hstart
      rw [ih horder hspans.2, List.mem_cons]
      constructor
      · rintro ⟨hmem, hle, hnone⟩
        exact ⟨.inr hmem, hle, hnone⟩
      · rintro ⟨rfl | hmem, hle, hnone⟩
        · exact absurd hle hstart
        · exact ⟨hmem, hle, hnone⟩

theorem pairwise_spansFrom (config : Config) (ts : List Token) (start : Nat) :
    (spansFrom config ts start).Pairwise fun s s' => s.1 < s'.1 := by
  refine List.Pairwise.filterMap _ (fun i j hij s hs s' hs' => ?_) List.pairwise_lt_range'
  obtain ⟨_, -, rfl⟩ := Option.map_eq_some_iff.1 hs
  obtain ⟨_, -, rfl⟩ := Option.map_eq_some_iff.1 hs'
  exact hij

/-- A function is taken if its keyword stands inside no signature that is. -/
theorem mem_takenSpans_iff :
    (i, a) ∈ takenSpans config ts
      ↔ returnArrow? config ts i = some a ∧
        ∀ span ∈ takenSpans config ts, ¬ (span.1 < i ∧ i < span.2) := by
  have hspans : ∀ s ∈ spansFrom config ts 0, s.1 ≤ s.2 := fun s hs =>
    Nat.le_of_lt (span_bounds (mem_spansFrom.1 hs).2).1
  rw [takenSpans, takenFrom, mem_spansApart_iff (pairwise_spansFrom config ts 0) hspans,
    mem_spansFrom]
  constructor
  · rintro ⟨⟨-, hspan⟩, -, hnone⟩
    exact ⟨hspan, fun s hs hin => hnone s hs ⟨hin.1, by dsimp only; omega⟩⟩
  · rintro ⟨hspan, hnone⟩
    refine ⟨⟨Nat.zero_le i, hspan⟩, Nat.zero_le i, fun s hs hin => ?_⟩
    -- A function keyword is no arrow.
    have hne : i ≠ s.2 := by
      rintro rfl
      have hkeyword := isFunctionKeyword_of_returnArrow? hspan
      have harrow := (span_bounds (mem_spansFrom.1 (mem_spansApart hspans hs).1).2).2.2
      obtain ⟨t, ht, hk⟩ := (Option.any_eq_true _ _).1 hkeyword
      rw [ht, Option.any_some] at harrow
      rw [isArrow, Token.is_iff] at harrow
      rw [isFunctionKeyword, Token.is_iff, harrow.1] at hk
      cases hk.1
    refine hnone s hs ⟨hin.1, ?_⟩
    have := hin.2
    dsimp only at this
    omega

/-- **Which return arrows become colons.**  A return arrow becomes a colon exactly if a function
    that it belongs to stands inside no signature that the pass has changed, which is: not between
    the keyword and the arrow of a function that is taken. -/
theorem becomesColon_iff (h : returnArrow? config ts i = some a) :
    BecomesColon config ts a
      ↔ ∃ j, returnArrow? config ts j = some a ∧
        ∀ span ∈ takenSpans config ts, ¬ (span.1 < j ∧ j < span.2) := by
  rw [becomesColon_iff_mem h, arrowsOf, List.mem_map]
  constructor
  · rintro ⟨span, hspan, rfl⟩
    exact ⟨span.1, mem_takenSpans_iff.1 hspan⟩
  · rintro ⟨j, hj⟩
    exact ⟨(j, a), mem_takenSpans_iff.2 hj, rfl⟩

/-- The tokens of a function with another one in its body. -/
def functionInBody : List Token :=
  [.keyword "func", .identifier "f", Bracket.round.openToken, Bracket.round.closeToken,
    .symbol "->", .identifier "A", Bracket.curly.openToken, .keyword "func", .identifier "g",
    Bracket.round.openToken, Bracket.round.closeToken, .symbol "->", .identifier "B",
    Bracket.curly.openToken, Bracket.curly.closeToken, Bracket.curly.closeToken]

/-- A function in the body of another has its arrow replaced. -/
theorem becomesColon_in_body :
    returnArrow? .default functionInBody 7 = some 11 ∧ BecomesColon .default functionInBody 11 := by
  have harrow : returnArrow? .default functionInBody 7 = some 11 := by decide
  exact ⟨harrow, (becomesColon_iff harrow).2 ⟨7, harrow, by decide⟩⟩

/-- The tokens of a function with another one in the default value of its parameter. -/
def functionInDefault : List Token :=
  [⟨.keyword, "func", ⟨1, 1⟩⟩, ⟨.whitespace, " ", ⟨1, 5⟩⟩, ⟨.identifier, "f", ⟨1, 6⟩⟩,
    ⟨.startOfScope, "(", ⟨1, 7⟩⟩, ⟨.identifier, "a", ⟨1, 8⟩⟩, ⟨.symbol, ":", ⟨1, 9⟩⟩,
    ⟨.identifier, "A", ⟨1, 10⟩⟩, ⟨.symbol, "=", ⟨1, 11⟩⟩, ⟨.startOfScope, "\x7b", ⟨1, 12⟩⟩,
    ⟨.keyword, "func", ⟨1, 13⟩⟩, ⟨.whitespace, " ", ⟨1, 17⟩⟩, ⟨.identifier, "g", ⟨1, 18⟩⟩,
    ⟨.startOfScope, "(", ⟨1, 19⟩⟩, ⟨.endOfScope, ")", ⟨1, 20⟩⟩, ⟨.symbol, "->", ⟨1, 21⟩⟩,
    ⟨.identifier, "B", ⟨1, 23⟩⟩, ⟨.startOfScope, "\x7b", ⟨1, 24⟩⟩, ⟨.endOfScope, "\x7d", ⟨1, 25⟩⟩,
    ⟨.endOfScope, "\x7d", ⟨1, 26⟩⟩, ⟨.endOfScope, ")", ⟨1, 27⟩⟩, ⟨.symbol, "->", ⟨1, 28⟩⟩,
    ⟨.identifier, "C", ⟨1, 30⟩⟩, ⟨.startOfScope, "\x7b", ⟨1, 31⟩⟩, ⟨.endOfScope, "\x7d", ⟨1, 32⟩⟩]

theorem tokenize_functionInDefault :
    tokenize "func f(a:A=\x7bfunc g()->B\x7b\x7d\x7d)->C\x7b\x7d" = .ok functionInDefault := by
  cbv

/-- A function in a default value keeps its arrow, since the pass goes on behind the arrow of the
    function around it. -/
theorem not_becomesColon_default_argument :
    ¬ ∀ (source : String) (ts : List Token), tokenize source = .ok ts →
      ∀ i a, returnArrow? .default ts i = some a → BecomesColon .default ts a := by
  intro hall
  have harrow : returnArrow? .default functionInDefault 9 = some 14 := by decide
  have hcolon := hall _ _ tokenize_functionInDefault 9 14 harrow
  rw [becomesColon_iff_mem harrow] at hcolon
  exact absurd hcolon (by decide)

end Kotlinize
