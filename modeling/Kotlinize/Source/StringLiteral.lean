import Kotlinize.Source.Character
import Kotlinize.Source.Cut

namespace Kotlinize

/-!
# String literals

A literal opens with any number of hashes and one or three quotes, and closes with the same
quotes and as many hashes. A backslash with as many hashes escapes the next character, or
starts an interpolated expression if an opening parenthesis follows; an expression ends at
its balancing parenthesis and may hold literals of its own, which have no hashes.

* `Frame` — what is open at a place inside a literal: a literal or an expression.
* `Frame.step?` — what one character does to the innermost of them.
* `scanFrames?` — reads on until nothing is open any more.
* `stringLiteral?` — the rest of a literal whose first character is known.
-/

/-- What can be open inside a string literal. -/
inductive Frame where
  /-- A literal with its number of hashes; `multiline` if it has three quotes. -/
  | quoted (hashes : Nat) (multiline : Bool)
  /-- An interpolated expression, with the number of parentheses open inside it. -/
  | expression (depth : Nat)
deriving DecidableEq, Repr

namespace Frame

/-- The characters that close a literal. -/
def closing (hashes : Nat) (multiline : Bool) : List Char :=
  (if multiline then ['"', '"', '"'] else ['"']) ++ List.replicate hashes '#'

/-- The characters that start an escape in a literal. -/
def escape (hashes : Nat) : List Char := '\\' :: List.replicate hashes '#'

/-- Whether a text starts with three quotes. -/
def startsMultiline (cs : List Char) : Bool := ['"', '"', '"'].isPrefixOf cs

/-- What the character `c`, followed by `cs`, does to the innermost open frame: how many of the
characters after it are read together with it, and what is open in the frame's place.
A literal of one line may not reach a line end. -/
def step? (c : Char) (cs : List Char) : Frame → Option (Nat × List Frame)
  | quoted hashes multiline =>
    if isLineEnd c && !multiline then none
    else if (closing hashes multiline).isPrefixOf (c :: cs) then
      some ((closing hashes multiline).length - 1, [])
    else if (escape hashes).isPrefixOf (c :: cs) then
      if (cs.drop hashes).head? = some '(' then
        some (hashes + 1, [expression 0, quoted hashes multiline])
      else some (hashes + 1, [quoted hashes multiline])
    else some (0, [quoted hashes multiline])
  | expression depth =>
    if c = '(' then some (0, [expression (depth + 1)])
    else if c = ')' then
      if depth = 0 then some (0, []) else some (0, [expression (depth - 1)])
    else if c = '"' then
      if startsMultiline (c :: cs) then some (2, [quoted 0 true, expression depth])
      else some (0, [quoted 0 false, expression depth])
    else some (0, [expression depth])

end Frame

/-- Reads until no frame is open: `skip` characters are taken as they are, and each one after
them acts on the innermost frame. `none` if the text ends first or a frame forbids a
character. -/
def scanFrames? : Nat → List Frame → List Char → Option Cut
  | 0, [], cs => some ⟨[], cs⟩
  | _, _, [] => none
  | skip + 1, frames, c :: cs => (scanFrames? skip frames cs).map (Cut.cons c)
  | 0, frame :: frames, c :: cs =>
    match frame.step? c cs with
    | none => none
    | some (skip, opened) => (scanFrames? skip (opened ++ frames) cs).map (Cut.cons c)

/-- The rest of a literal of `hashes` hashes, after the first character of the whole literal,
which is a hash or a quote. -/
def stringLiteral? (hashes : Nat) (c : Char) (cs : List Char) : Option Cut :=
  if Frame.startsMultiline ((c :: cs).drop hashes) then
    scanFrames? (hashes + 2) [.quoted hashes true] cs
  else scanFrames? hashes [.quoted hashes false] cs

theorem whole_of_scanFrames? {skip : Nat} {frames : List Frame} {cs : List Char} {k : Cut}
    (h : scanFrames? skip frames cs = some k) : k.whole = cs := by
  fun_induction scanFrames? skip frames cs generalizing k with
  | case1 => cases h; rfl
  | case2 => cases h
  | case3 _ _ _ _ ih =>
    obtain ⟨k', hk', rfl⟩ := Option.map_eq_some_iff.1 h
    simp [ih hk']
  | case4 => cases h
  | case5 _ _ _ _ _ _ _ ih =>
    obtain ⟨k', hk', rfl⟩ := Option.map_eq_some_iff.1 h
    simp [ih hk']

theorem whole_of_stringLiteral? {hashes : Nat} {c : Char} {cs : List Char} {k : Cut}
    (h : stringLiteral? hashes c cs = some k) : k.whole = cs := by
  unfold stringLiteral? at h
  split at h <;> exact whole_of_scanFrames? h

end Kotlinize
