import Kotlinize.Token.Basic

namespace Kotlinize

/-!
# Brackets

* `Bracket` — the three pairs, with the texts that open and close each.
* `Bracket.enclosed?` — what stands between an opener and its partner, where only brackets of
  the same pair count; `eq_of_enclosed?` says that it cuts the list and changes nothing.
* `matchingClose?` — the same by index.
* `scopeBalance` — openers minus closers, over all brackets.
* `Token.depthFrom` — depth over all brackets, as the searches for commas and accessors
  count it.
-/

/-- A pair of brackets. -/
inductive Bracket where
  | round
  | square
  | curly
deriving DecidableEq, Repr

namespace Bracket

/-- Every pair. -/
def all : List Bracket := [round, square, curly]

/-- The text that opens the pair. -/
def opener : Bracket → String
  | round => "("
  | square => "["
  | curly => "\x7b"

/-- The text that closes the pair. -/
def closer : Bracket → String
  | round => ")"
  | square => "]"
  | curly => "\x7d"

/-- The pair that a text opens. -/
def ofOpener? (text : String) : Option Bracket :=
  all.find? fun b => b.opener == text

/-- Whether a token opens the pair. -/
def opens (b : Bracket) (t : Token) : Bool := t.is .startOfScope b.opener

/-- Whether a token closes the pair. -/
def closes (b : Bracket) (t : Token) : Bool := t.is .endOfScope b.closer

/-- The opening token of the pair, as an edit inserts it. -/
def openToken (b : Bracket) : Token := { kind := .startOfScope, text := b.opener }

/-- The closing token of the pair, as an edit inserts it. -/
def closeToken (b : Bracket) : Token := { kind := .endOfScope, text := b.closer }

theorem ofOpener?_opener (b : Bracket) : ofOpener? b.opener = some b := by
  cases b <;> rfl

theorem not_closes_of_opens {b : Bracket} {t : Token} (h : b.opens t = true) :
    b.closes t = false := by
  simp only [opens, Token.is_iff] at h
  simp [closes, Token.is, h.1]

end Bracket

/-! ### What a pair encloses -/

/-- The tokens after an opener: those up to its partner, the partner, and the rest. -/
structure Enclosed where
  inside : List Token
  close : Token
  tail : List Token
deriving DecidableEq, Repr

namespace Enclosed

/-- One more token at the front of the inside. -/
def cons (t : Token) (e : Enclosed) : Enclosed := { e with inside := t :: e.inside }

/-- The tokens as they stand in the text. -/
def whole (e : Enclosed) : List Token := e.inside ++ e.close :: e.tail

@[simp] theorem whole_cons (t : Token) (e : Enclosed) : (e.cons t).whole = t :: e.whole := rfl

end Enclosed

namespace Bracket

/-- What stands before the closer that balances an opener already read, when `depth` inner
brackets of the same pair are open. Other brackets do not count. -/
def enclosed? (b : Bracket) (depth : Nat) : List Token → Option Enclosed
  | [] => none
  | t :: ts =>
    if b.opens t then (b.enclosed? (depth + 1) ts).map (Enclosed.cons t)
    else if b.closes t then
      if depth = 0 then some ⟨[], t, ts⟩
      else (b.enclosed? (depth - 1) ts).map (Enclosed.cons t)
    else (b.enclosed? depth ts).map (Enclosed.cons t)

/-- Nothing is lost: inside, closer and tail make up the list again. -/
theorem whole_of_enclosed? {b : Bracket} {depth : Nat} {ts : List Token} {e : Enclosed}
    (h : b.enclosed? depth ts = some e) : e.whole = ts := by
  fun_induction enclosed? b depth ts generalizing e with
  | case1 => cases h
  | case2 _ _ _ _ ih | case4 _ _ _ _ _ _ ih | case5 _ _ _ _ _ ih =>
    obtain ⟨e', he', rfl⟩ := Option.map_eq_some_iff.1 h
    rw [Enclosed.whole_cons, ih he']
  | case3 => cases h; rfl

/-- The token that ends the enclosed run closes the pair. -/
theorem closes_of_enclosed? {b : Bracket} {depth : Nat} {ts : List Token} {e : Enclosed}
    (h : b.enclosed? depth ts = some e) : b.closes e.close = true := by
  fun_induction enclosed? b depth ts generalizing e with
  | case1 => cases h
  | case2 _ _ _ _ ih | case4 _ _ _ _ _ _ ih | case5 _ _ _ _ _ ih =>
    obtain ⟨e', he', rfl⟩ := Option.map_eq_some_iff.1 h
    exact (ih he' :)
  | case3 => cases h; assumption

end Bracket

/-- The index of the closer that balances the opener at index `i`. -/
def matchingClose? (ts : List Token) (i : Nat) : Option Nat := do
  let opener ← ts[i]?
  guard (opener.kind == .startOfScope)
  let b ← Bracket.ofOpener? opener.text
  let e ← b.enclosed? 0 (ts.drop (i + 1))
  return i + 1 + e.inside.length

/-! ### Depth and balance over all brackets -/

namespace Token

/-- The depth after a token, when every opening and closing token counts; a closer at depth 0
leaves it there. -/
def depthFrom (depth : Nat) (t : Token) : Nat :=
  match t.kind with
  | .startOfScope => depth + 1
  | .endOfScope => depth - 1
  | _ => depth

/-- What a token adds to the scope balance. -/
def scopeStep (t : Token) : Int :=
  match t.kind with
  | .startOfScope => 1
  | .endOfScope => -1
  | _ => 0

end Token

/-- Opening tokens minus closing tokens. -/
def scopeBalance : List Token → Int
  | [] => 0
  | t :: ts => t.scopeStep + scopeBalance ts

@[simp] theorem scopeBalance_nil : scopeBalance [] = 0 := rfl

@[simp] theorem scopeBalance_cons (t : Token) (ts : List Token) :
    scopeBalance (t :: ts) = t.scopeStep + scopeBalance ts := rfl

@[simp] theorem scopeBalance_append (as bs : List Token) :
    scopeBalance (as ++ bs) = scopeBalance as + scopeBalance bs := by
  induction as with
  | nil => simp
  | cons t ts ih => simp [ih, Int.add_assoc]

end Kotlinize
