import Kotlinize.Edited
import Kotlinize.Function.ParameterList

namespace Kotlinize

/-!
# Parameter labels

A Swift parameter may have a label for its callers in front of its name; a Kotlin parameter has
its name only.

* `unlabelled?` — a parameter without its label, if it has one.
* `unlabelledList` — the same for all parameters of a list.
* `dropLabels` — the pass over a text.
-/

/-- Whether a token can be a label: a name or a reserved word, but no attribute or directive. -/
def isLabel (t : Token) : Bool :=
  t.isIdentifier || (t.isKeyword && !t.text.toList.head?.any fun c => c == '@' || c == '#')

/-- The parameter without its label and the spacing behind it; `none` if its first two tokens
that carry syntax are not a label and a name. -/
def unlabelled? (parameter : List Token) : Option (List Token) :=
  match significant parameter with
  | [] => none
  | label :: rest =>
    if isLabel label && (significant rest).head?.any Token.isIdentifier then
      some (leadingTrivia parameter ++ rest.dropWhile Token.isSpacing)
    else none

/-- The parameter without its label, with a count of 1 if it has one. -/
def unlabelled (parameter : List Token) : Edited :=
  match unlabelled? parameter with
  | some ts => ⟨ts, 1⟩
  | none => ⟨parameter, 0⟩

/-- The later parameters of a list without their labels. -/
def unlabelledLater : List (Token × List Token) → Edited
  | [] => .nil
  | (comma, parameter) :: later =>
    let e := unlabelled parameter
    ((unlabelledLater later).append (comma :: e.tokens)).counted e.count

/-- All parameters of a list without their labels. -/
def Parameters.unlabelled (ps : Parameters) : Edited :=
  let e := Kotlinize.unlabelled ps.first
  ((unlabelledLater ps.later).append e.tokens).counted e.count

/-- The tokens after a function keyword, without the labels in its parameter list. -/
def unlabelledList (ts : List Token) : Edited :=
  match parameterList? ts with
  | none => ⟨ts, 0⟩
  | some p =>
    let inside := (splitParameters 0 p.enclosed.inside).unlabelled
    ⟨p.name ++ p.opener :: (inside.tokens ++ p.enclosed.close :: p.enclosed.tail), inside.count⟩

/-! ### Nothing grows -/

theorem length_unlabelled_le (parameter : List Token) :
    (unlabelled parameter).tokens.length ≤ parameter.length := by
  unfold unlabelled unlabelled?
  split
  · rename_i ts h
    split at h
    · cases h
    · rename_i label rest hs
      split at h
      · cases h
        have hw := leadingTrivia_append_significant parameter
        have hd := (List.dropWhile_sublist Token.isSpacing (l := rest)).length_le
        rw [hs] at hw
        have hl := congrArg List.length hw
        simp only [List.length_append, List.length_cons] at hl ⊢
        omega
      · cases h
  · exact Nat.le_refl _

theorem length_unlabelledLater_le (later : List (Token × List Token)) :
    (unlabelledLater later).tokens.length ≤ (later.flatMap fun p => p.1 :: p.2).length := by
  induction later with
  | nil => simp [unlabelledLater]
  | cons p later ih =>
    have := length_unlabelled_le p.2
    simp only [unlabelledLater, Edited.tokens_counted, Edited.tokens_append, List.length_append,
      List.length_cons, List.flatMap_cons] at ih ⊢
    omega

theorem length_unlabelledList_le (ts : List Token) :
    (unlabelledList ts).tokens.length ≤ ts.length := by
  unfold unlabelledList
  split
  · exact Nat.le_refl _
  · rename_i p h
    have hw := congrArg List.length (whole_of_parameterList? h)
    have hs := congrArg List.length (whole_splitParameters 0 p.enclosed.inside)
    have h₁ := length_unlabelled_le (splitParameters 0 p.enclosed.inside).first
    have h₂ := length_unlabelledLater_le (splitParameters 0 p.enclosed.inside).later
    simp only [Parameters.whole, ParameterList.whole, Enclosed.whole, Parameters.unlabelled,
      Edited.tokens_counted, Edited.tokens_append, List.length_append, List.length_cons]
      at hw hs h₁ h₂ ⊢
    omega

/-! ### The pass -/

/-- Drops every label in the parameter lists of a text, list by list from the front; the count
is the number of labels. -/
def dropLabels : List Token → Edited
  | [] => .nil
  | t :: ts =>
    if isFunctionKeyword t then
      let e := unlabelledList ts
      ((dropLabels e.tokens).cons t).counted e.count
    else (dropLabels ts).cons t
termination_by ts => ts.length
decreasing_by
  · exact Nat.lt_succ_of_le (length_unlabelledList_le ts)
  · exact Nat.lt_succ_self _

end Kotlinize
