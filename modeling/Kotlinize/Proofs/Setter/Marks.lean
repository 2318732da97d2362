import Kotlinize.Proofs.Indices
import Kotlinize.Proofs.Setter.Remaining
import Kotlinize.Token.Edit

namespace Kotlinize

/-!
# Restricted setters by index

A `(set)` stands at an index of a line.  The keyword in front of it and the token behind it are
found by searches that pass over whitespace; what stands between them goes with the modifier.

* `isSetAt`, `modifierIndex?`, `marks` — where a line holds `modifier(set)`.
* `modifierIndex?_eq_some_iff` — such a modifier is a keyword that `(set)` comes next behind.
* `takeMark?` — the modifier of a line, and what is left of the line without it.
* `HoldsOneMark.exists_takeMark?` — both for a line with one such modifier.
-/

variable {line ts after : List Token} {t : Token} {i k : Nat}

/-! ### Marks -/

/-- The tokens `(`, `set` and `)` stand at an index and behind it. -/
def isSetAt (ts : List Token) (i : Nat) : Bool :=
  isAt ts i .startOfScope "(" && isAt ts (i + 1) .identifier "set"
    && isAt ts (i + 2) .endOfScope ")"

/-- The index of the keyword in front of the `(set)` at an index, whitespace apart. -/
def modifierIndex? (ts : List Token) (i : Nat) : Option Nat :=
  if isSetAt ts i then
    (indexOfPrevious? (fun t => !t.isWhitespace) ts i).filter fun k => ts[k]?.any Token.isKeyword
  else none

/-- The indices at which a line holds a `(set)` with a keyword in front of it. -/
def marks (line : List Token) : List Nat :=
  (List.range line.length).filter fun i => (modifierIndex? line i).isSome

theorem isSetAt_iff :
    isSetAt ts i = true ↔ ∃ opener word closer after,
      ts.drop i = opener :: word :: closer :: after ∧ Bracket.round.opens opener = true ∧
        word.is .identifier "set" = true ∧ Bracket.round.closes closer = true := by
  have hget : ∀ j, ts[i + j]? = (ts.drop i)[j]? := fun j => List.getElem?_drop.symm
  rw [isSetAt, isAt, isAt, isAt, hget 1, hget 2, ← Nat.add_zero i, hget 0, Nat.add_zero]
  rcases ts.drop i with _ | ⟨opener, _ | ⟨word, _ | ⟨closer, after⟩⟩⟩
  · simp
  · simp
  · simp
  · simp [Bracket.opens, Bracket.closes, Bracket.opener, Bracket.closer, and_assoc]

/-- What comes next in a text, in parts. -/
theorem SetNext.exists_append (h : SetNext ts after) :
    ∃ back opener word closer, ts = back ++ opener :: word :: closer :: after ∧
      (∀ t ∈ back, t.isSpacing = true) ∧ Bracket.round.opens opener = true ∧
      word.is .identifier "set" = true ∧ Bracket.round.closes closer = true := by
  induction h with
  | @set opener word closer after ho hw hc =>
    exact ⟨[], opener, word, closer, rfl, List.forall_mem_nil _, ho, hw, hc⟩
  | @spacing t ts after ht _ ih =>
    obtain ⟨back, opener, word, closer, rfl, hb, hset⟩ := ih
    exact ⟨t :: back, opener, word, closer, rfl, List.forall_mem_cons.2 ⟨ht, hb⟩, hset⟩

theorem isWhitespace_of_isKeyword (h : t.isKeyword = true) : t.isWhitespace = false := by
  rw [Token.isKeyword, beq_iff_eq] at h
  simp [Token.isWhitespace, h]

/-- On a line all spacing is whitespace. -/
theorem isSpacing_eq_isWhitespace (h : t.isLinebreak = false) : t.isSpacing = t.isWhitespace := by
  rw [Token.isLinebreak] at h
  rw [Token.isSpacing, h, Bool.or_false, Token.isWhitespace]

/-- A keyword in front of a `(set)` is one that `(set)` comes next behind. -/
theorem modifierIndex?_eq_some_iff (hl : ∀ t ∈ line, t.isLinebreak = false) :
    modifierIndex? line i = some k ↔ ∃ front modifier rest after,
      line = front ++ modifier :: rest ∧ front.length = k ∧ modifier.isKeyword = true ∧
        SetNext rest after ∧ i + 3 + after.length = line.length := by
  unfold modifierIndex?
  constructor
  · intro h
    obtain ⟨hset, hmodifier⟩ := Option.ite_none_right_eq_some.1 h
    obtain ⟨hprevious, hkeyword⟩ := Option.filter_eq_some_iff.1 hmodifier
    obtain ⟨opener, word, closer, after, hdrop, ho, hw, hc⟩ := isSetAt_iff.1 hset
    obtain ⟨front, modifier, back, htake, rfl, -, hback⟩ :=
      indexOfPrevious?_eq_some_iff.1 hprevious
    have hsplit : line = front ++ modifier :: (back ++ opener :: word :: closer :: after) := by
      rw [← List.take_append_drop i line, htake, hdrop]
      simp
    refine ⟨front, modifier, _, after, hsplit, rfl, ?_, ?_, ?_⟩
    · rw [hsplit] at hkeyword
      simpa using hkeyword
    · refine setNext_append_of_isSpacing (fun t ht => ?_) (.set ho hw hc)
      have hwhitespace : t.isWhitespace = true := by simpa using hback t ht
      rw [isSpacing_eq_isWhitespace (hl t (by simp [hsplit, ht])), hwhitespace]
    · have hlength := congrArg List.length hdrop
      simp only [List.length_drop, List.length_cons] at hlength
      omega
  · rintro ⟨front, modifier, rest, after, rfl, rfl, hm, hset, hlength⟩
    obtain ⟨back, opener, word, closer, rfl, hback, ho, hw, hc⟩ := hset.exists_append
    have hi : i = (front ++ modifier :: back).length := by
      simp only [List.length_append, List.length_cons] at hlength ⊢
      omega
    have hline : front ++ modifier :: (back ++ opener :: word :: closer :: after)
        = (front ++ modifier :: back) ++ opener :: word :: closer :: after := by
      simp
    rw [if_pos (isSetAt_iff.2 ⟨opener, word, closer, after, ?_, ho, hw, hc⟩),
      Option.filter_eq_some_iff]
    · refine ⟨indexOfPrevious?_eq_some_iff.2 ⟨front, modifier, back, ?_, rfl, ?_, ?_⟩, ?_⟩
      · rw [hline, hi, List.take_left]
      · simp [isWhitespace_of_isKeyword hm]
      · intro t ht
        have hspacing := hback t ht
        rw [isSpacing_eq_isWhitespace (hl t (by simp [ht]))] at hspacing
        simp [hspacing]
      · simp [hm]
    · rw [hline, hi, List.drop_left]

theorem mem_marks_iff : i ∈ marks line ↔ (modifierIndex? line i).isSome = true := by
  rw [marks, List.mem_filter, List.mem_range, and_iff_right_of_imp]
  intro h
  obtain ⟨k, hk⟩ := Option.isSome_iff_exists.1 h
  obtain ⟨hset, -⟩ := Option.ite_none_right_eq_some.1 hk
  obtain ⟨opener, word, closer, after, hdrop, -⟩ := isSetAt_iff.1 hset
  have hlength := congrArg List.length hdrop
  simp only [List.length_drop, List.length_cons] at hlength
  omega

/-- A keyword that `(set)` comes next behind is found by its index. -/
theorem exists_mem_marks (hl : ∀ t ∈ line, t.isLinebreak = false) {front rest : List Token}
    {modifier : Token} (hline : line = front ++ modifier :: rest)
    (hm : modifier.isKeyword = true) (hset : SetNext rest after) :
    ∃ i ∈ marks line, modifierIndex? line i = some front.length := by
  have hlength : 3 + after.length ≤ line.length := by
    obtain ⟨back, opener, word, closer, rfl, -⟩ := hset.exists_append
    simp [hline]
    omega
  have hfound : modifierIndex? line (line.length - (3 + after.length)) = some front.length :=
    (modifierIndex?_eq_some_iff hl).2
      ⟨front, modifier, rest, after, hline, rfl, hm, hset, by omega⟩
  exact ⟨_, mem_marks_iff.2 (Option.isSome_iff_exists.2 ⟨_, hfound⟩), hfound⟩

/-! ### Lines with one mark -/

/-- The index of the first token behind the `(set)` at an index that is not whitespace. -/
def declarationIndex? (ts : List Token) (i : Nat) : Option Nat :=
  indexOfNext? (fun t => !t.isWhitespace) ts (i + 2)

/-- The modifier of a line, and the line without the tokens from its modifier up to the
declaration. -/
def takeMark? (ts : List Token) : Option (Token × List Token) := do
  let i ← (marks ts).head?
  let k ← modifierIndex? ts i
  let modifier ← ts[k]?
  let next ← declarationIndex? ts i
  pure (modifier, removeRange ts k next)

/-- A line holds one `modifier(set)` at most, and the declaration stands on the line too. -/
structure HoldsOneMark (line : List Token) : Prop where
  single : (marks line).length ≤ 1
  followed : ∀ i ∈ marks line, (declarationIndex? line i).isSome = true

instance (line : List Token) : Decidable (HoldsOneMark line) :=
  decidable_of_iff ((marks line).length ≤ 1 ∧
      ∀ i ∈ marks line, (declarationIndex? line i).isSome = true)
    ⟨fun h => ⟨h.1, h.2⟩, fun h => ⟨h.single, h.followed⟩⟩

/-- On a line, what is cut off as whitespace is cut off as spacing. -/
theorem cut_isWhitespace (hl : ∀ t ∈ ts, t.isLinebreak = false) :
    (ts.takeWhile fun t => !!t.isWhitespace) = ts.takeWhile Token.isSpacing ∧
      (ts.dropWhile fun t => !!t.isWhitespace) = ts.dropWhile Token.isSpacing := by
  induction ts with
  | nil => exact ⟨rfl, rfl⟩
  | cons t ts ih =>
    rw [List.forall_mem_cons] at hl
    obtain ⟨htake, hdrop⟩ := ih hl.2
    constructor
    · rw [List.takeWhile_cons, List.takeWhile_cons, Bool.not_not,
        isSpacing_eq_isWhitespace hl.1, htake]
    · rw [List.dropWhile_cons, List.dropWhile_cons, Bool.not_not,
        isSpacing_eq_isWhitespace hl.1, hdrop]

/-- The declaration starts behind the spacing behind `(set)`. -/
theorem declarationIndex?_eq (hl : ∀ t ∈ after, t.isLinebreak = false)
    (hdrop : line.drop (i + 2) = t :: after) :
    declarationIndex? line i = (after.dropWhile Token.isSpacing).head?.map fun _ =>
      i + 3 + (after.takeWhile Token.isSpacing).length := by
  obtain ⟨htake, hdropWhile⟩ := cut_isWhitespace hl
  rw [declarationIndex?, indexOfNext?_of_drop _ hdrop, htake, hdropWhile]

/-- What is removed lies between what stays. -/
theorem removeRange_append (front gone behind : List Token) {last : Nat}
    (hlast : last = front.length + gone.length) :
    removeRange (front ++ (gone ++ behind)) front.length last = front ++ behind := by
  simp [removeRange, hlast]

/-- **A line with one mark**: what `(set)` comes next behind is the modifier at the index of the
    mark, and what is left is what stands in front of it and the declaration. -/
theorem HoldsOneMark.exists_takeMark? (h : HoldsOneMark line)
    (hl : ∀ t ∈ line, t.isLinebreak = false) (hmarks : marks line ≠ []) :
    ∃ front modifier rest after,
      line = front ++ modifier :: rest ∧ modifier.isKeyword = true ∧ SetNext rest after ∧
        after.dropWhile Token.isSpacing ≠ [] ∧
        takeMark? line = some (modifier, front ++ after.dropWhile Token.isSpacing) ∧
        ∀ i ∈ marks line, modifierIndex? line i = some front.length := by
  obtain ⟨i, hi⟩ : ∃ i, marks line = [i] :=
    List.length_eq_one_iff.1 (le_antisymm h.single (List.length_pos_iff.2 hmarks))
  have hmem : i ∈ marks line := by simp [hi]
  obtain ⟨k, hk⟩ := Option.isSome_iff_exists.1 (mem_marks_iff.1 hmem)
  obtain ⟨front, modifier, rest, after, hline, rfl, hm, hset, hlength⟩ :=
    (modifierIndex?_eq_some_iff hl).1 hk
  obtain ⟨back, opener, word, closer, rfl, -⟩ := hset.exists_append
  have hback : i = front.length + 1 + back.length := by
    simp only [hline, List.length_append, List.length_cons] at hlength
    omega
  have hdrop : line.drop (i + 2) = closer :: after := by
    have hcut : line = (front ++ modifier :: (back ++ [opener, word])) ++ closer :: after := by
      simp [hline]
    rw [hcut, List.drop_left' (by simp [hback]; omega)]
  have hnext := declarationIndex?_eq (fun t ht => hl t (by simp [hline, ht])) hdrop
  have hdeclaration : after.dropWhile Token.isSpacing ≠ [] := by
    have hfollowed := h.followed i hmem
    rwa [hnext, Option.isSome_map, List.isSome_head?] at hfollowed
  obtain ⟨first, tail, hfirst⟩ := List.exists_cons_of_ne_nil hdeclaration
  refine ⟨front, modifier, _, after, hline, hm, hset, hdeclaration, ?_, by simpa [hi] using hk⟩
  -- From the modifier up to the declaration.
  have hgone : line = front ++ ((modifier :: (back ++ [opener, word, closer]
      ++ after.takeWhile Token.isSpacing)) ++ after.dropWhile Token.isSpacing) := by
    simp [hline, List.takeWhile_append_dropWhile]
  have hmodifier : (line)[front.length]? = some modifier := by
    simp [hline]
  rw [hfirst, List.head?_cons, Option.map_some] at hnext
  simp only [takeMark?, hi, List.head?_cons, hk, hmodifier, hnext, Option.bind_eq_bind,
    Option.bind_some, Option.pure_def]
  rw [hgone, removeRange_append]
  simp [hback]
  omega

end Kotlinize
