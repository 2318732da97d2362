import Kotlinize.Source.Character
import Kotlinize.Source.Cut

namespace Kotlinize

/-!
# Comments

* `lineComment` — a comment up to the end of its line.
* `blockComment?` — the rest of a block comment; block comments nest.
-/

/-- The rest of a line comment: everything up to the next line end, which stays. -/
def lineComment (cs : List Char) : Cut := Cut.takeWhile (fun c => !isLineEnd c) cs

/-- The rest of a block comment whose opening is already read, with `depth` comments open
inside it; `none` if the text ends first. -/
def blockComment? (depth : Nat) : List Char → Option Cut
  | '/' :: '*' :: cs => ((blockComment? (depth + 1) cs).map (Cut.cons '*')).map (Cut.cons '/')
  | '*' :: '/' :: cs =>
    if depth = 0 then some ⟨['*', '/'], cs⟩
    else ((blockComment? (depth - 1) cs).map (Cut.cons '/')).map (Cut.cons '*')
  | c :: cs => (blockComment? depth cs).map (Cut.cons c)
  | [] => none

@[simp] theorem whole_lineComment (cs : List Char) : (lineComment cs).whole = cs :=
  Cut.whole_takeWhile _ cs

theorem whole_of_blockComment? {depth : Nat} {cs : List Char} {k : Cut}
    (h : blockComment? depth cs = some k) : k.whole = cs := by
  fun_induction blockComment? depth cs generalizing k with
  | case1 _ _ ih | case3 _ _ _ ih =>
    simp only [Option.map_map, Option.map_eq_some_iff, Function.comp_apply] at h
    obtain ⟨k', hk', rfl⟩ := h
    simp [ih hk']
  | case2 => cases h; rfl
  | case4 _ _ _ _ _ ih =>
    obtain ⟨k', hk', rfl⟩ := Option.map_eq_some_iff.1 h
    simp [ih hk']
  | case5 => cases h

end Kotlinize
