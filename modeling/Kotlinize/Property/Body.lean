import Kotlinize.Property.Accessor
import Kotlinize.Property.TypedName

namespace Kotlinize

/-!
# Property bodies

* `PropertyBody`, `propertyBody?` — the tokens after a variable keyword, cut at the braces of a
  property that has them.
* `BodyForm`, `PropertyBody.form` — what the braces hold.
-/

/-! ### The shape of a property -/

/-- The marks that may stand in the type of a computed property. -/
def computedTypeMarks : List String := ["<", ">", "[", "]", "?", "!", "."]

/-- Whether a token may go on with the type of a computed property: blanks and comments may
stand in it, line ends may not. -/
def continuesType (t : Token) : Bool :=
  isTypeToken computedTypeMarks t || t.isWhitespace || t.kind == .comment

/-- The tokens after a variable keyword: those before the body, its opening brace, and what that
encloses and leaves. -/
structure PropertyBody where
  lead : List Token
  opener : Token
  enclosed : Enclosed
deriving DecidableEq, Repr

/-- The tokens as they stand in the text. -/
def PropertyBody.whole (p : PropertyBody) : List Token :=
  p.lead ++ p.opener :: p.enclosed.whole

/-- The body of the property that a variable keyword followed by `ts` declares: a name, a colon
and a type, and then a brace that has a partner. -/
def propertyBody? (ts : List Token) : Option PropertyBody :=
  match typedName? ts with
  | none => none
  | some n =>
    if n.type.head?.any (isTypeToken computedTypeMarks) then
      match significant (n.type.dropWhile continuesType) with
      | [] => none
      | opener :: rest =>
        if Bracket.curly.opens opener then
          (Bracket.curly.enclosed? 0 rest).map
            (⟨n.lead ++ (n.type.takeWhile continuesType
                ++ leadingTrivia (n.type.dropWhile continuesType)), opener, ·⟩)
        else none
    else none

theorem whole_of_propertyBody? {ts : List Token} {p : PropertyBody}
    (h : propertyBody? ts = some p) : p.whole = ts := by
  unfold propertyBody? at h
  split at h
  · cases h
  · rename_i n hn
    split at h
    · split at h
      · cases h
      · rename_i opener rest hs
        split at h
        · obtain ⟨e, he, rfl⟩ := Option.map_eq_some_iff.1 h
          simp only [PropertyBody.whole, Bracket.whole_of_enclosed? he, List.append_assoc]
          rw [← hs, leadingTrivia_append_significant, List.takeWhile_append_dropWhile]
          exact whole_of_typedName? hn
        · cases h
    · cases h

/-! ### What the braces hold -/

/-- Accessor words that mark a stored property under observation. -/
def observers : List String := ["willSet", "didSet"]

/-- What the braces of a property hold. -/
inductive BodyForm where
  /-- Observers, or an accessor without a body: the property stays as it is. -/
  | other
  /-- No accessor: the statements of a getter. -/
  | getter
  /-- Accessors; `settable` if there is a setter. -/
  | accessors (settable : Bool)
deriving DecidableEq, Repr

namespace PropertyBody

/-- The closing brace and the tokens behind it. -/
def beyond (p : PropertyBody) : List Token := p.enclosed.close :: p.enclosed.tail

/-- The first accessor of a name directly inside the braces. -/
def accessor? (p : PropertyBody) (name : String) : Option Accessor :=
  Kotlinize.accessor? name p.enclosed.inside

/-- What the braces hold. -/
def form (p : PropertyBody) : BodyForm :=
  if observers.any fun name => (p.accessor? name).isSome then .other
  else if ["get", "set"].any fun name =>
    (p.accessor? name).any fun a => !a.hasBody p.beyond then .other
  else if (p.accessor? "get").isNone && (p.accessor? "set").isNone then .getter
  else .accessors (p.accessor? "set").isSome

end PropertyBody

end Kotlinize
