import Kotlinize.Edited
import Kotlinize.Property.TypedName

namespace Kotlinize

/-!
# Late-initialised properties

A property that gets its value after its owner is made has an exclamation mark behind its type
in Swift, and the modifier `lateinit` in front of it in Kotlin.

* `unmarked?` — the tokens of such a property without the mark.
* `markLateInit` — the pass over a text.
-/

/-- The marks that may stand in the type of a late-initialised property. -/
def lateInitTypeMarks : List String := ["<", ">", "[", "]", "."]

/-- The tokens after a variable keyword without the exclamation mark behind the type; `none` if
no mark follows the type directly. No trivia may stand in the type. -/
def unmarked? (ts : List Token) : Option (List Token) :=
  match typedName? ts with
  | none => none
  | some n =>
    match n.type.takeWhile (isTypeToken lateInitTypeMarks),
        n.type.dropWhile (isTypeToken lateInitTypeMarks) with
    | first :: type, mark :: rest =>
      if mark.is .symbol "!" then some (n.lead ++ (first :: type ++ rest)) else none
    | _, _ => none

theorem length_of_unmarked? {ts us : List Token} (h : unmarked? ts = some us) :
    ts.length = us.length + 1 := by
  unfold unmarked? at h
  split at h
  · cases h
  · rename_i n hn
    split at h
    · rename_i first type mark rest h₁ h₂
      split at h
      · cases h
        have hw := whole_of_typedName? hn
        have ht := List.takeWhile_append_dropWhile (p := isTypeToken lateInitTypeMarks)
          (l := n.type)
        rw [h₁, h₂] at ht
        rw [← hw, TypedName.whole, ← ht]
        simp only [List.length_append, List.length_cons]
        omega
      · cases h
    · cases h

/-- The modifier of a late-initialised property, and the space behind it. -/
def lateInitModifier : List Token := [.keyword "lateinit", .space]

/-- Writes the modifier for the mark of every late-initialised property; the count is the number
of properties. -/
def markLateInit : List Token → Edited
  | [] => .nil
  | t :: ts =>
    match _h : if isVariableKeyword t then unmarked? ts else none with
    | some us => ((markLateInit us).append (lateInitModifier ++ [t])).counted 1
    | none => (markLateInit ts).cons t
termination_by ts => ts.length
decreasing_by
  · split at _h
    · have := length_of_unmarked? _h
      simp only [List.length_cons]
      omega
    · cases _h
  · exact Nat.lt_succ_self _

end Kotlinize
