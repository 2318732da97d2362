import Kotlinize.Proofs.Arrow.Place
import Kotlinize.Proofs.Loop.Cursor
import Kotlinize.Token.Edit

namespace Kotlinize

/-!
# The loop over return arrows

The loop comes to every index and looks for the return arrow of a function keyword there.  A colon
takes the place of the arrow, the spacing in front of it goes, and a space may come behind it; the
loop goes on behind the colon, so never in front of the keyword again.

* `colonFor?`, `arrowStep` — an iteration of the loop.
* `colonFor?_append` — what the loop makes of a signature.
* `lt_arrowStep`, `functions_arrowStep` — the loop goes on behind the keyword, and has one less to
  come.
* `ends_arrowStep` — the loop ends, with the outcome of the pass.
-/

variable {config : Config} {s s' : Cursor} {ts before rest : List Token} {t : Token} {i n : Nat}

/-! ### Iterations -/

/-- The text with a colon for the return arrow of the function keyword at an index, and the index
    behind the colon. -/
def colonFor? (config : Config) (ts : List Token) (i : Nat) : Option (List Token × Nat) := do
  let arrow ← returnArrow? config ts i
  let spaced := spaceAt (replaceAt ts arrow (.symbol ":")) (arrow + 1)
  match indexOfPrevious? (fun t => !t.isSpacing) spaced arrow with
  | some previous =>
    return (removeSpacingAt spaced (previous + 1),
      arrow - (spacingAt spaced (previous + 1)).length + 1)
  | none => return (spaced, arrow + 1)

/-- The loop over return arrows looks for a function keyword at every index. -/
def arrowStep (config : Config) : Cursor → Option Cursor := scan (colonFor? config)

/-- The text up to the colon that is written for the arrow of a signature. -/
def writtenColon (before : List Token) (t : Token) (s : Signature) : List Token :=
  before ++ t :: (dropSpacingEnd s.before ++ [.symbol ":"])

/-! ### What the loop makes of a signature -/

/-- The text with a colon in place of an arrow and whitespace behind it. -/
theorem spaceAt_replaceAt_append (front result : List Token) (arrow colon : Token) :
    spaceAt (replaceAt (front ++ arrow :: result) front.length colon) (front.length + 1)
      = front ++ colon :: (gapBefore result ++ result) := by
  have hreplaced : replaceAt (front ++ arrow :: result) front.length colon
      = (front ++ [colon]) ++ result := by
    rw [replaceAt, List.set_append_right _ _ (Nat.le_refl _), Nat.sub_self, List.set_cons_zero,
      List.append_assoc, List.singleton_append]
  have hlen : front.length + 1 = (front ++ [colon]).length := by
    rw [List.length_append, List.length_singleton]
  have hneeds : needsSpaceAt ((front ++ [colon]) ++ result) (front ++ [colon]).length
      = !result.head?.any Token.isWhitespace := by
    rw [needsSpaceAt, ← List.head?_drop, List.drop_left]
  rw [hreplaced, hlen, spaceAt, hneeds, insertAt, List.take_left, List.drop_left, gapBefore]
  cases result.head?.any Token.isWhitespace <;> simp

/-- What stands in front of an arrow, cut behind its last token that is no spacing. -/
theorem exists_append_spacing (before : List Token) (hk : isFunctionKeyword t = true)
    (s : Signature) :
    ∃ front last spacing, before ++ t :: dropSpacingEnd s.before = front ++ [last] ∧
      last.isSpacing = false ∧ (∀ u ∈ spacing, u.isSpacing = true) ∧
      s.before = dropSpacingEnd s.before ++ spacing := by
  obtain ⟨spacing, hspacing, hs⟩ := exists_eq_dropSpacingEnd_append s.before
  rcases List.eq_nil_or_concat (dropSpacingEnd s.before) with hnil | ⟨us, last, hlast⟩
  · exact ⟨before, t, spacing, by rw [hnil],
      isSpacing_eq_false (isTrivia_of_is hk (by decide) (by decide) (by decide)), hspacing, hs⟩
  · refine ⟨before ++ t :: us, last, spacing, by simp [hlast], ?_, hspacing, hs⟩
    exact isSpacing_of_getLast?_dropSpacingEnd (by rw [hlast]; simp)

/-- **What the loop makes of a signature** with a return arrow. -/
theorem colonFor?_append (before : List Token) (hk : isFunctionKeyword t = true) {s : Signature}
    (hs : signature? config rest = some s) :
    colonFor? config (before ++ t :: rest) before.length
      = some (writtenColon before t s ++ (gapBefore s.result ++ s.result),
          (writtenColon before t s).length) := by
  obtain ⟨front, last, spacing, hfront, hlast, hspacing, hbefore⟩ :=
    exists_append_spacing before hk s
  have hwritten : writtenColon before t s = (front ++ [last]) ++ [.symbol ":"] := by
    rw [← hfront, writtenColon, List.append_assoc, List.cons_append]
  have harrow : before ++ t :: rest = (front ++ last :: spacing) ++ s.arrow :: s.result := by
    have hcut : (before ++ t :: dropSpacingEnd s.before) ++ spacing ++ s.arrow :: s.result
        = before ++ t :: rest := by
      rw [← whole_of_signature? hs, Signature.whole, List.append_assoc before, List.cons_append,
        ← hbefore, List.append_assoc before, List.cons_append]
    rw [← hcut, hfront, List.append_assoc front, List.singleton_append]
  have hindex : before.length + 1 + s.before.length = (front ++ last :: spacing).length := by
    have hlength := congrArg List.length hfront
    simp only [List.length_append, List.length_cons, List.length_nil] at hlength
    rw [hbefore, List.length_append, List.length_append, List.length_cons]
    omega
  have hprevious : ∀ tail, indexOfPrevious? (fun u => !u.isSpacing)
      ((front ++ last :: spacing) ++ tail) (front ++ last :: spacing).length
        = some front.length := fun tail =>
    indexOfPrevious?_eq_some_iff.2 ⟨front, last, spacing, List.take_left, rfl, by simp [hlast],
      by simpa using hspacing⟩
  have hdrop : ∀ tail, ((front ++ last :: spacing) ++ tail).drop (front.length + 1)
      = spacing ++ tail := fun tail => by
    rw [List.append_assoc, List.cons_append, List.append_cons, List.drop_left' (by simp)]
  have htake : ∀ tail, ((front ++ last :: spacing) ++ tail).take (front.length + 1)
      = front ++ [last] := fun tail => by
    rw [List.append_assoc, List.cons_append, List.append_cons, List.take_left' (by simp)]
  have hcolon : ¬ (Token.symbol ":").isSpacing = true := by decide
  rw [colonFor?, returnArrow?_append before rest hk, hs, Option.map_some, hindex, harrow]
  simp only [Option.bind_eq_bind, Option.bind_some, spaceAt_replaceAt_append, hprevious,
    removeSpacingAt, spacingAt, hdrop, htake, List.dropWhile_append_of_pos hspacing,
    List.takeWhile_append_of_pos hspacing, List.dropWhile_cons_of_neg hcolon,
    List.takeWhile_cons_of_neg hcolon, hwritten]
  simp
  omega

/-! ### One iteration -/

/-- The space behind a colon is no keyword. -/
theorem isFunctionKeyword_of_mem_gapBefore (h : t ∈ gapBefore ts) :
    isFunctionKeyword t = false := by
  rcases gapBefore_eq ts with hgap | hgap
  · rw [hgap] at h
    cases h
  · rw [hgap, List.mem_singleton] at h
    rw [h]
    rfl

theorem isFunctionKeyword_of_colonFor? {r : List Token × Nat} (h : colonFor? config ts i = some r) :
    ts[i]?.any isFunctionKeyword = true := by
  obtain ⟨a, ha, -⟩ := Option.bind_eq_some_iff.1 h
  exact isFunctionKeyword_of_returnArrow? ha

/-- What an iteration does: it goes one index on, or writes a colon for an arrow. -/
theorem arrowStep_eq_some (h : arrowStep config s = some s') :
    (s.index < s.tokens.length ∧ s' = { s with index := s.index + 1 }) ∨
      ∃ before t rest sig, s = ⟨before ++ t :: rest, before.length, s.count⟩ ∧
        isFunctionKeyword t = true ∧ signature? config rest = some sig ∧
        s' = ⟨writtenColon before t sig ++ (gapBefore sig.result ++ sig.result),
          (writtenColon before t sig).length, s.count + 1⟩ := by
  obtain ⟨hi, ⟨us, j, hr, rfl⟩ | ⟨-, rfl⟩⟩ := scan_eq_some h
  · obtain ⟨a, ha, -⟩ := Option.bind_eq_some_iff.1 hr
    obtain ⟨before, t, rest, sig, hts, hlen, hk, hsig, -⟩ := exists_signature?_of_returnArrow? ha
    rw [hts, ← hlen, colonFor?_append before hk hsig] at hr
    obtain ⟨rfl, rfl⟩ := Prod.mk.inj (Option.some.inj hr)
    exact .inr ⟨before, t, rest, sig, by rw [← hts, hlen], hk, hsig, rfl⟩
  · exact .inl ⟨hi, rfl⟩

/-- **The loop goes on** behind its index.  Where it has written a colon, a function keyword stands
    at the index, before and after. -/
theorem lt_arrowStep (h : arrowStep config s = some s') :
    s.index < s'.index ∧ (s'.count = s.count ∨
      s.tokens[s.index]?.any isFunctionKeyword = true ∧
        s'.tokens[s.index]? = s.tokens[s.index]?) := by
  obtain ⟨-, rfl⟩ | ⟨before, t, rest, sig, hs, hk, -, rfl⟩ := arrowStep_eq_some h
  · exact ⟨Nat.lt_succ_self _, .inl rfl⟩
  · rw [hs]
    refine ⟨by simp [writtenColon], .inr ⟨by simp [hk], ?_⟩⟩
    simp [writtenColon]

/-- **Less is left** behind the index after each iteration. -/
theorem length_sub_arrowStep (h : arrowStep config s = some s') :
    s'.tokens.length - s'.index < s.tokens.length - s.index := by
  obtain ⟨hi, rfl⟩ | ⟨before, t, rest, sig, hs, -, hsig, rfl⟩ := arrowStep_eq_some h
  · dsimp only
    omega
  · have hlength := congrArg List.length (whole_of_signature? hsig)
    have hgap : (gapBefore sig.result).length ≤ 1 := by
      rcases gapBefore_eq sig.result with h | h <;> simp [h]
    rw [hs]
    simp only [Signature.whole, List.length_append, List.length_cons] at hlength ⊢
    omega

/-- **Fewer are to come.**  An iteration that writes a colon has its function keyword behind it. -/
theorem functions_arrowStep (h : arrowStep config s = some s') :
    s'.count + s'.ahead.countP isFunctionKeyword
      ≤ s.count + s.ahead.countP isFunctionKeyword := by
  obtain ⟨-, rfl⟩ | ⟨before, t, rest, sig, hs, hk, hsig, rfl⟩ := arrowStep_eq_some h
  · exact Nat.add_le_add_left (List.drop_sublist_drop_left _ (Nat.le_succ _)).countP_le _
  · have hgap : (gapBefore sig.result).countP isFunctionKeyword = 0 :=
      List.countP_eq_zero.2 fun u hu => by simp [isFunctionKeyword_of_mem_gapBefore hu]
    have hrest := congrArg (List.countP isFunctionKeyword) (whole_of_signature? hsig)
    rw [hs, Cursor.ahead_append, Cursor.ahead_append, List.countP_cons_of_pos hk,
      List.countP_append, hgap]
    rw [Signature.whole, List.countP_append, List.countP_cons] at hrest
    dsimp only
    omega

/-! ### The loop ends -/

theorem colonFor?_eq_none (h : returnArrow? config ts i = none) : colonFor? config ts i = none := by
  rw [colonFor?, h]
  rfl

/-- **The loop over return arrows ends** from every place, with the outcome of the pass. -/
theorem ends_arrowStep (config : Config) (before ts : List Token) (n : Nat) :
    Ends (arrowStep config) ⟨before ++ ts, before.length, n⟩
      (((arrowsToColons config ts).append before).counted n) := by
  fun_induction arrowsToColons config ts generalizing before n with
  | case1 => exact .done (scan_of_length_le (by simp))
  | case2 t ts hk s hs ih =>
    have hrest := ih (writtenColon before t s ++ gapBefore s.result) (n + 1)
    refine .next (scan_of_some (by simp) (colonFor?_append before hk hs))
      (.skip_append (fun k hle hlt => skips_scan ?_) ?_)
    · rw [Option.eq_none_iff_forall_ne_some]
      intro r hr
      obtain ⟨u, hu, hfunction⟩ :=
        (Option.any_eq_true _ _).1 (isFunctionKeyword_of_colonFor? hr)
      rw [List.getElem?_append_right hle, List.getElem?_append_left (by omega)] at hu
      rw [isFunctionKeyword_of_mem_gapBefore (List.mem_of_getElem? hu)] at hfunction
      cases hfunction
    · simpa [arrowStep, writtenColon, Edited.counted, Edited.append, Nat.add_assoc] using hrest
  | case3 t ts hk hs ih =>
    have hrest := ih (before ++ [t]) n
    rw [← Edited.append_cons] at hrest
    refine .skip_cons (skips_scan (colonFor?_eq_none ?_)) hrest
    rw [returnArrow?_append before ts hk, hs]
    rfl
  | case4 t ts hk ih =>
    have hrest := ih (before ++ [t]) n
    rw [← Edited.append_cons] at hrest
    refine .skip_cons (skips_scan (Option.eq_none_iff_forall_ne_some.2 fun r hr => ?_)) hrest
    have := isFunctionKeyword_of_colonFor? hr
    simp [hk] at this

end Kotlinize
