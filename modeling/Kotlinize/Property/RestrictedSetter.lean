import Kotlinize.Config
import Kotlinize.Edited
import Kotlinize.Token.Bracket

namespace Kotlinize

/-!
# Restricted setters

A modifier that holds for the setter only stands as `modifier(set)` in front of a Swift
declaration, and as `modifier set` on a line of its own behind a Kotlin one.

* `restricted?` — the declaration behind such a modifier.
* `setterLine` — the line that is written for it.
* `relocateSettersAfter`, `relocateSetters` — the pass over a text.
-/

/-- The declaration that a modifier followed by `ts` restricts: `(set)` stands right behind the
modifier, with spacing around it, and a further token behind that. -/
def restricted? (ts : List Token) : Option (List Token) :=
  match ts.dropWhile Token.isSpacing with
  | opener :: word :: closer :: rest =>
    if Bracket.round.opens opener && word.is .identifier "set" && Bracket.round.closes closer then
      match rest.dropWhile Token.isSpacing with
      | [] => none
      | declaration => some declaration
    else none
  | _ => none

theorem length_lt_of_restricted? {ts declaration : List Token}
    (h : restricted? ts = some declaration) : declaration.length < ts.length := by
  unfold restricted? at h
  split at h
  · rename_i opener word closer rest hd
    split at h
    · split at h
      · cases h
      · cases h
        have h₁ := (List.dropWhile_sublist Token.isSpacing (l := ts)).length_le
        have h₂ := (List.dropWhile_sublist Token.isSpacing (l := rest)).length_le
        rw [hd] at h₁
        simp only [List.length_cons] at h₁
        omega
    · cases h
  · cases h

/-- The first token of the line after one more token on it. -/
def nextLineHead (lineHead? : Option Token) (t : Token) : Option Token :=
  if t.isLinebreak then none else some (lineHead?.getD t)

/-- The text of a line's first token, if that is whitespace. -/
def indentText (lineHead? : Option Token) : String :=
  match lineHead? with
  | some t => if t.isWhitespace then t.text else ""
  | none => ""

/-- The line behind a declaration that holds the modifier of its setter, one level deeper than
the declaration. Its line end is that of the declaration, which goes on with `after`, or a line
feed at the end of the text. -/
def setterLine (config : Config) (lineHead? : Option Token) (modifier : Token)
    (after : List Token) : List Token :=
  [after.head?.getD .newline, .whitespace (indentText lineHead? ++ config.indentUnit), modifier,
    .space, .identifier "set"]

/-- Moves the modifiers of setters in a text whose current line starts with `lineHead?`, if
anything stands on it yet. The pass goes on at the end of the declaration's line. -/
def relocateSettersAfter (config : Config) (lineHead? : Option Token) : List Token → Edited
  | [] => .nil
  | t :: ts =>
    match _h : if t.isKeyword then restricted? ts else none with
    | some declaration =>
      let line := declaration.takeWhile fun u => !u.isLinebreak
      let after := declaration.dropWhile fun u => !u.isLinebreak
      ((relocateSettersAfter config none after).append
        (line ++ setterLine config lineHead? t after)).counted 1
    | none => (relocateSettersAfter config (nextLineHead lineHead? t) ts).cons t
termination_by ts => ts.length
decreasing_by
  · split at _h
    · have := length_lt_of_restricted? _h
      have := (List.dropWhile_sublist (fun u : Token => !u.isLinebreak)
        (l := declaration)).length_le
      simp only [List.length_cons]
      omega
    · cases _h
  · exact Nat.lt_succ_self _

theorem relocateSettersAfter_of_eq_some {config : Config} {lineHead? : Option Token} {t : Token}
    {ts declaration : List Token}
    (h : (if t.isKeyword then restricted? ts else none) = some declaration) :
    relocateSettersAfter config lineHead? (t :: ts)
      = ((relocateSettersAfter config none (declaration.dropWhile fun u => !u.isLinebreak)).append
          ((declaration.takeWhile fun u => !u.isLinebreak)
            ++ setterLine config lineHead? t
              (declaration.dropWhile fun u => !u.isLinebreak))).counted 1 := by
  rw [relocateSettersAfter]
  split <;> simp_all

theorem relocateSettersAfter_of_eq_none {config : Config} {lineHead? : Option Token} {t : Token}
    {ts : List Token} (h : (if t.isKeyword then restricted? ts else none) = none) :
    relocateSettersAfter config lineHead? (t :: ts)
      = (relocateSettersAfter config (nextLineHead lineHead? t) ts).cons t := by
  rw [relocateSettersAfter]
  split <;> simp_all

/-- Moves the modifier of every restricted setter to a line behind its declaration; the count
is the number of modifiers moved. -/
def relocateSetters (config : Config) (ts : List Token) : Edited :=
  relocateSettersAfter config none ts

end Kotlinize
