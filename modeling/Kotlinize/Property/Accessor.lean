import Kotlinize.Token.Bracket

namespace Kotlinize

/-!
# Accessors

* `startsAfter` — what may stand in front of an accessor word.
* `Accessor`, `accessor?` — the first accessor of a name directly inside a property body.
* `Accessor.hasBody` — whether a body in braces follows it.
-/

/-- Modifiers that may stand in front of an accessor word. -/
def accessorModifiers : List String := ["mutating", "nonmutating"]

/-- Whether an accessor can start behind a token that carries syntax: behind the body of
another accessor, or behind a modifier. -/
def startsAfter (t : Token) : Bool :=
  Bracket.curly.closes t || accessorModifiers.contains t.text

/-- A property body cut at an accessor word. -/
structure Accessor where
  before : List Token
  word : Token
  after : List Token
deriving DecidableEq, Repr

namespace Accessor

/-- The tokens as they stand in the text. -/
def whole (a : Accessor) : List Token := a.before ++ a.word :: a.after

/-- One more token in front. -/
def cons (t : Token) (a : Accessor) : Accessor := { a with before := t :: a.before }

@[simp] theorem whole_cons (t : Token) (a : Accessor) : (a.cons t).whole = t :: a.whole := rfl

end Accessor

/-- The first accessor `name` among the tokens of a property body: a name at depth 0 where an
accessor can start. `depth` brackets are open, and `ready` says whether the last token that
carries syntax lets an accessor start. -/
def accessorAt? (name : String) (depth : Nat) (ready : Bool) : List Token → Option Accessor
  | [] => none
  | t :: ts =>
    if t.is .identifier name && depth == 0 && ready then some ⟨[], t, ts⟩
    else
      (accessorAt? name (t.depthFrom depth) (if t.isTrivia then ready else startsAfter t) ts).map
        (Accessor.cons t)

/-- The first accessor `name` of a property body, whose opening brace stands right in front. -/
def accessor? (name : String) (body : List Token) : Option Accessor :=
  accessorAt? name 0 true body

theorem of_accessorAt? {name : String} {depth : Nat} {ready : Bool} {ts : List Token}
    {a : Accessor} (h : accessorAt? name depth ready ts = some a) :
    a.whole = ts ∧ a.word.is .identifier name = true := by
  induction ts generalizing depth ready a with
  | nil => cases h
  | cons t ts ih =>
    unfold accessorAt? at h
    split at h
    · cases h
      rename_i hc
      simp only [Bool.and_eq_true] at hc
      exact ⟨rfl, hc.1.1⟩
    · obtain ⟨a', ha', rfl⟩ := Option.map_eq_some_iff.1 h
      obtain ⟨hw, hi⟩ := ih ha'
      exact ⟨by rw [Accessor.whole_cons, hw], hi⟩

/-- Whether a body in braces follows, perhaps behind a parameter list. -/
def startsBody (ts : List Token) : Bool :=
  match significant ts with
  | [] => false
  | t :: rest =>
    if Bracket.round.opens t then
      match Bracket.round.enclosed? 0 rest with
      | some e => (significant e.tail).head?.any Bracket.curly.opens
      | none => false
    else Bracket.curly.opens t

/-- Whether an accessor has a body, when the tokens `beyond` follow the property body. -/
def Accessor.hasBody (a : Accessor) (beyond : List Token) : Bool := startsBody (a.after ++ beyond)

end Kotlinize
