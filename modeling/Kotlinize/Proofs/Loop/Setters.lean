import Kotlinize.Proofs.Loop.Cursor
import Kotlinize.Proofs.Rewrite
import Kotlinize.Proofs.Setter.Lines

namespace Kotlinize

/-!
# The loop over restricted setters

The loop comes to every index and looks for the word of a `(set)` there.  The modifier stands
somewhere in front of it, and goes with what stands in between, however long that is; a line is
written behind the declaration, and the loop goes on behind that line.  So its index may get
smaller, but what is left behind it always does.

The pass finds the same setters from their modifiers on.  Between a modifier and its `(set)` there
is nothing but spacing, so neither of the two comes to a setter that the other has passed.

* `relocation?`, `setterStep` — an iteration of the loop.
* `RestrictedSetter` — what stands behind a modifier, in parts; `exists_of_relocation?` says that
  the loop finds nothing else, `relocation?_append` what it makes of it.
* `length_sub_setterStep`, `setCount_setterStep` — there is less left, and a `(set)` less to come.
* `ends_setterStep` — the loop ends, with the outcome of the pass.
-/

variable {config : Config} {s s' : Cursor} {ts us front : List Token} {t modifier : Token}
  {i j n : Nat}

/-! ### Iterations -/

/-- The text with the modifier moved whose `(set)` has its word at an index, and the index behind
    the new line. -/
def relocation? (config : Config) (ts : List Token) : Nat → Option (List Token × Nat)
  | 0 => none
  | opener + 1 =>
    if isSetAt ts opener then do
      let modifierIndex ← indexOfPrevious? (fun t => !t.isSpacing) ts opener
      let modifier ← ts[modifierIndex]?.filter Token.isKeyword
      let next ← indexOfNext? (fun t => !t.isSpacing) ts (opener + 2)
      let declared := removeRange ts modifierIndex next
      let end? := lineEnd? declared modifierIndex
      let lineEnd := (end?.bind fun i => declared[i]?).getD .newline
      let indent := (indentation? ts modifierIndex).elim "" Token.text
      let line :=
        [lineEnd, .whitespace (indent ++ config.indentUnit), modifier, .space, .identifier "set"]
      let place := end?.getD declared.length
      return (insertAt declared place line, place + line.length)
    else none

/-- The loop over restricted setters looks for a `(set)` at every index. -/
def setterStep (config : Config) : Cursor → Option Cursor := scan (relocation? config)

/-! ### Restricted setters in parts -/

/-- What stands behind a modifier that restricts a setter. -/
structure RestrictedSetter where
  gap : List Token
  opener : Token
  word : Token
  closer : Token
  behind : List Token
  declaration : List Token
  gap_isSpacing : ∀ t ∈ gap, t.isSpacing = true
  opens : Bracket.round.opens opener = true
  isSet : word.is .identifier "set" = true
  closes : Bracket.round.closes closer = true
  behind_isSpacing : ∀ t ∈ behind, t.isSpacing = true
  head_declaration : ∃ t rest, declaration = t :: rest ∧ t.isSpacing = false

namespace RestrictedSetter

/-- What goes with the modifier. -/
def gone (r : RestrictedSetter) : List Token :=
  r.gap ++ r.opener :: r.word :: r.closer :: r.behind

/-- The tokens as they stand in the text. -/
def whole (r : RestrictedSetter) : List Token := r.gone ++ r.declaration

/-- The line of the declaration, as far as it goes. -/
def line (r : RestrictedSetter) : List Token := r.declaration.takeWhile fun t => !t.isLinebreak

/-- What follows the line of the declaration. -/
def after (r : RestrictedSetter) : List Token := r.declaration.dropWhile fun t => !t.isLinebreak

theorem line_append_after (r : RestrictedSetter) : r.line ++ r.after = r.declaration :=
  List.takeWhile_append_dropWhile

theorem restricted?_whole (r : RestrictedSetter) : restricted? r.whole = some r.declaration := by
  obtain ⟨t, rest, hdeclaration, ht⟩ := r.head_declaration
  have hkept : (r.behind ++ r.declaration).dropWhile Token.isSpacing = r.declaration := by
    rw [List.dropWhile_append_of_pos r.behind_isSpacing, hdeclaration,
      List.dropWhile_cons_of_neg (by simp [ht])]
  have hset : SetNext (r.gap ++ r.opener :: r.word :: r.closer :: (r.behind ++ r.declaration))
      (r.behind ++ r.declaration) :=
    setNext_append_of_isSpacing r.gap_isSpacing (.set r.opens r.isSet r.closes)
  have hwhole : r.whole
      = r.gap ++ r.opener :: r.word :: r.closer :: (r.behind ++ r.declaration) := by
    simp [whole, gone]
  have hne : (r.behind ++ r.declaration).dropWhile Token.isSpacing ≠ [] := by
    rw [hkept, hdeclaration]
    exact List.cons_ne_nil t rest
  rw [hwhole, restricted?_of_setNext hset hne, hkept]

end RestrictedSetter

theorem exists_restrictedSetter {declaration : List Token} (h : restricted? ts = some declaration) :
    ∃ r : RestrictedSetter, r.whole = ts ∧ r.declaration = declaration := by
  obtain ⟨gap, opener, word, closer, behind, rfl, hgap, ho, hw, hc, hbehind, hhead⟩ :=
    restricted?_eq_some h
  exact ⟨⟨gap, opener, word, closer, behind, declaration, hgap, ho, hw, hc, hbehind, hhead⟩,
    by simp [RestrictedSetter.whole, RestrictedSetter.gone], rfl⟩

/-! ### What the loop finds -/

/-- The line of an index starts behind the last line end in front of it, or with the text. -/
theorem exists_lineStart (front rest : List Token) :
    ∃ earlier line, front = earlier ++ line ∧
      lineStart (front ++ rest) front.length = earlier.length ∧ lineHead? front = line.head? := by
  rw [lineStart]
  cases hp : indexOfPrevious? Token.isLinebreak (front ++ rest) front.length with
  | none =>
    rw [indexOfPrevious?, Option.map_eq_none_iff, List.findIdx?_eq_none_iff, List.take_left] at hp
    exact ⟨[], front, rfl, rfl, lineHead?_eq_head? fun t ht => hp t (List.mem_reverse.2 ht)⟩
  | some i =>
    obtain ⟨before, lineEnd, line, htake, rfl, hend, hline⟩ := indexOfPrevious?_eq_some_iff.1 hp
    rw [List.take_left] at htake
    refine ⟨before ++ [lineEnd], line, by simp [htake], by simp, ?_⟩
    rw [htake, lineHead?, List.foldl_append, List.foldl_cons, nextLineHead, if_pos hend,
      ← lineHead?, lineHead?_eq_head? hline]

/-- The indentation of the line of a modifier, by the first token of the line. -/
theorem indentText_lineHead? (front rest : List Token) (hm : modifier.isKeyword = true) :
    (indentation? (front ++ modifier :: rest) front.length).elim "" Token.text
      = indentText (lineHead? front) := by
  have hindent : ∀ head? : Option Token,
      (head?.filter Token.isWhitespace).elim "" Token.text = indentText head? := by
    intro head?
    cases head? with
    | none => rfl
    | some t => cases h : t.isWhitespace <;> simp [indentText, h, Option.filter]
  obtain ⟨earlier, line, rfl, hstart, hhead⟩ := exists_lineStart front (modifier :: rest)
  have hget : (earlier ++ line ++ modifier :: rest)[earlier.length]?
      = (line ++ modifier :: rest).head? := by
    rw [List.append_assoc, List.getElem?_append_right (Nat.le_refl _), Nat.sub_self,
      List.head?_eq_getElem?]
  rw [indentation?, hstart, hget, hindent, hhead, indentText_head?_append hm]

/-- The text up to the end of the line written for a modifier. -/
def writtenFor (config : Config) (front : List Token) (modifier : Token) (r : RestrictedSetter) :
    List Token :=
  front ++ (r.line ++ setterLine config (lineHead? front) modifier r.after)

/-- The new line ends with the word of the setter. -/
theorem exists_writtenFor_eq (config : Config) (front : List Token) (modifier : Token)
    (r : RestrictedSetter) :
    ∃ written, writtenFor config front modifier r = written ++ [.identifier "set"] :=
  ⟨front ++ (r.line ++ (setterLine config (lineHead? front) modifier r.after).dropLast), by
    simp [writtenFor, setterLine]⟩

/-- Where the line of a declaration ends that starts at an index, and the line end there. -/
theorem lineEnd?_declaration (front : List Token) (r : RestrictedSetter) :
    (lineEnd? (front ++ r.declaration) front.length).getD (front ++ r.declaration).length
        = (front ++ r.line).length ∧
      ((lineEnd? (front ++ r.declaration) front.length).bind fun i => (front ++ r.declaration)[i]?)
        = r.after.head? := by
  obtain ⟨t, rest, hdeclaration, ht⟩ := r.head_declaration
  have hunbroken : t.isLinebreak = false := by
    rw [Token.isSpacing, Bool.or_eq_false_iff] at ht
    exact ht.2
  have hline : r.line = t :: rest.takeWhile fun u => !u.isLinebreak := by
    rw [RestrictedSetter.line, hdeclaration, List.takeWhile_cons_of_pos (by simp [hunbroken])]
  have hafter : r.after = rest.dropWhile fun u => !u.isLinebreak := by
    rw [RestrictedSetter.after, hdeclaration, List.dropWhile_cons_of_pos (by simp [hunbroken])]
  have hdrop : (front ++ r.declaration).drop front.length = t :: rest := by
    rw [List.drop_left, hdeclaration]
  have hlength : front.length + 1 + (rest.takeWhile fun u => !u.isLinebreak).length
      = (front ++ r.line).length := by
    rw [hline, List.length_append, List.length_cons]
    omega
  rw [lineEnd?, indexOfNext?_of_drop _ hdrop, ← hafter, hlength, ← r.line_append_after,
    ← List.append_assoc]
  cases h : r.after with
  | nil => simp
  | cons lineEnd more => simp

/-- The searches of the loop find the modifier of a restricted setter and its declaration. -/
theorem searches_append (front : List Token) (hm : modifier.isKeyword = true)
    (r : RestrictedSetter) :
    let ts := front ++ modifier :: r.whole
    let opener := front.length + r.gap.length + 1
    isSetAt ts opener = true ∧
      indexOfPrevious? (fun t => !t.isSpacing) ts opener = some front.length ∧
      ts[front.length]?.filter Token.isKeyword = some modifier ∧
      indexOfNext? (fun t => !t.isSpacing) ts (opener + 2)
        = some (front.length + (modifier :: r.gone).length) := by
  intro ts opener
  obtain ⟨t, rest, hdeclaration, ht⟩ := r.head_declaration
  have hcut : ts = (front ++ modifier :: r.gap)
      ++ r.opener :: r.word :: r.closer :: (r.behind ++ r.declaration) := by
    simp [ts, RestrictedSetter.whole, RestrictedSetter.gone]
  have hopener : opener = (front ++ modifier :: r.gap).length := by
    simp only [opener, List.length_append, List.length_cons]
    omega
  have hdrop : ts.drop opener
      = r.opener :: r.word :: r.closer :: (r.behind ++ r.declaration) := by
    rw [hcut, hopener, List.drop_left]
  have hcloser : ts.drop (opener + 2) = r.closer :: (r.behind ++ r.declaration) :=
    drop_succ_of_drop (drop_succ_of_drop hdrop)
  refine ⟨isSetAt_iff.2 ⟨r.opener, r.word, r.closer, _, hdrop, r.opens, r.isSet, r.closes⟩,
    indexOfPrevious?_eq_some_iff.2 ⟨front, modifier, r.gap, by rw [hcut, hopener, List.take_left],
      rfl, by simp [isSpacing_eq_false (isTrivia_of_isKeyword hm)], by simpa using r.gap_isSpacing⟩,
    by simp [ts, Option.filter, hm], ?_⟩
  simp only [indexOfNext?_of_drop _ hcloser, Bool.not_not]
  rw [List.dropWhile_append_of_pos r.behind_isSpacing,
    List.takeWhile_append_of_pos r.behind_isSpacing, hdeclaration,
    List.dropWhile_cons_of_neg (by simp [ht]), List.takeWhile_cons_of_neg (by simp [ht])]
  simp [opener, RestrictedSetter.gone]
  omega

/-- **What the loop makes of a restricted setter.** -/
theorem relocation?_append (config : Config) (front : List Token) (hm : modifier.isKeyword = true)
    (r : RestrictedSetter) :
    relocation? config (front ++ modifier :: r.whole) (front.length + r.gap.length + 2)
      = some (writtenFor config front modifier r ++ r.after,
          (writtenFor config front modifier r).length) := by
  obtain ⟨hset, hprevious, hmodifier, hnext⟩ := searches_append front hm r
  obtain ⟨hplace, hlineEnd⟩ := lineEnd?_declaration front r
  have hremoved : removeRange (front ++ modifier :: r.whole) front.length
      (front.length + (modifier :: r.gone).length) = front ++ r.declaration :=
    removeRange_append front (modifier :: r.gone) r.declaration rfl
  have hinserted : ∀ line, insertAt (front ++ r.declaration) (front ++ r.line).length line
      = (front ++ (r.line ++ line)) ++ r.after := by
    intro line
    rw [insertAt, ← r.line_append_after, ← List.append_assoc, List.take_left, List.drop_left,
      List.append_assoc front]
  have hsucc : front.length + r.gap.length + 2 = (front.length + r.gap.length + 1) + 1 := rfl
  rw [hsucc, relocation?, if_pos hset]
  simp only [hprevious, hmodifier, hnext, Option.bind_eq_bind, Option.bind_some, hremoved, hplace,
    hlineEnd, indentText_lineHead? front r.whole hm]
  rw [hinserted]
  simp [writtenFor, setterLine, Nat.add_assoc]

/-- The loop finds nothing but restricted setters. -/
theorem exists_of_relocation? {r : List Token × Nat} (h : relocation? config ts i = some r) :
    ∃ front modifier setter, ts = front ++ modifier :: RestrictedSetter.whole setter ∧
      modifier.isKeyword = true ∧ i = front.length + setter.gap.length + 2 := by
  cases i with
  | zero => cases h
  | succ opener =>
    rw [relocation?, Option.ite_none_right_eq_some] at h
    obtain ⟨hset, h⟩ := h
    obtain ⟨m, hprevious, h⟩ := Option.bind_eq_some_iff.1 h
    obtain ⟨modifier, hmodifier, h⟩ := Option.bind_eq_some_iff.1 h
    obtain ⟨next, hnext, -⟩ := Option.bind_eq_some_iff.1 h
    obtain ⟨t, word, closer, after, hdrop, ho, hw, hc⟩ := isSetAt_iff.1 hset
    obtain ⟨front, found, gap, htake, rfl, -, hgap⟩ := indexOfPrevious?_eq_some_iff.1 hprevious
    have hts : ts = front ++ found :: (gap ++ t :: word :: closer :: after) := by
      rw [← List.take_append_drop opener ts, htake, hdrop]
      simp
    obtain ⟨hfound, hkeyword⟩ := Option.filter_eq_some_iff.1 hmodifier
    obtain rfl : found = modifier := by simpa [hts] using hfound
    have hcloser : ts.drop (opener + 2) = closer :: after :=
      drop_succ_of_drop (drop_succ_of_drop hdrop)
    -- The token that the search forward finds starts the declaration.
    obtain ⟨first, hfirst⟩ : ∃ first, (after.dropWhile Token.isSpacing).head? = some first := by
      rw [indexOfNext?_of_drop _ hcloser] at hnext
      obtain ⟨first, hfirst, -⟩ := Option.map_eq_some_iff.1 hnext
      exact ⟨first, by simpa using hfirst⟩
    obtain ⟨rest, hrest⟩ := List.head?_eq_some_iff.1 hfirst
    have hspacing : first.isSpacing = false := by
      have := List.head?_dropWhile_not Token.isSpacing after
      rw [hfirst] at this
      simpa using this
    have hlength : opener = front.length + 1 + gap.length := by
      have hlt := (List.getElem?_eq_some_iff.1 (getElem?_of_drop_eq_cons hdrop)).1
      have hlen := congrArg List.length htake
      rw [List.length_take_of_le (Nat.le_of_lt hlt), List.length_append, List.length_cons] at hlen
      omega
    refine ⟨front, found, ⟨gap, t, word, closer, after.takeWhile Token.isSpacing,
      after.dropWhile Token.isSpacing, by simpa using hgap, ho, hw, hc, fun u => of_mem_takeWhile,
      first, rest, hrest, hspacing⟩, ?_, hkeyword, ?_⟩
    · simp [hts, RestrictedSetter.whole, RestrictedSetter.gone, List.takeWhile_append_dropWhile]
    · dsimp only
      omega

/-- The loop finds a setter at its word. -/
theorem isIdentifier_of_relocation? {r : List Token × Nat} (h : relocation? config ts i = some r) :
    ∃ t, ts[i]? = some t ∧ t.isIdentifier = true := by
  cases i with
  | zero => cases h
  | succ opener =>
    rw [relocation?, Option.ite_none_right_eq_some] at h
    obtain ⟨t, word, closer, after, hdrop, -, hw, -⟩ := isSetAt_iff.1 h.1
    exact ⟨word, getElem?_of_drop_eq_cons (drop_succ_of_drop hdrop), by
      simp [Token.isIdentifier, (Token.is_iff.1 hw).1]⟩

/-! ### One iteration -/

/-- The number of places where `(`, `set` and `)` follow each other. -/
def setCount (ts : List Token) : Nat := (List.range ts.length).countP (isSetAt ts)

theorem setCount_cons (t : Token) (ts : List Token) :
    setCount (t :: ts) = setCount ts + if isSetAt (t :: ts) 0 then 1 else 0 := by
  have hsucc : isSetAt (t :: ts) ∘ Nat.succ = isSetAt ts := rfl
  rw [setCount, List.length_cons, List.range_succ_eq_map, List.countP_cons, List.countP_map, hsucc,
    setCount]

theorem setCount_le_append (us ts : List Token) : setCount ts ≤ setCount (us ++ ts) := by
  induction us with
  | nil => exact Nat.le_refl _
  | cons u us ih =>
    rw [List.cons_append, setCount_cons]
    exact ih.trans (Nat.le_add_right _ _)

theorem setCount_drop_le (ts : List Token) (hij : i ≤ j) :
    setCount (ts.drop j) ≤ setCount (ts.drop i) := by
  obtain ⟨d, rfl⟩ := Nat.exists_eq_add_of_le hij
  rw [← List.take_append_drop d (ts.drop i), List.drop_drop]
  exact setCount_le_append _ _

theorem setCount_cons_of_isIdentifier (ts : List Token) (ht : t.isIdentifier = true) :
    setCount (t :: ts) = setCount ts := by
  rw [Token.isIdentifier, beq_iff_eq] at ht
  have hnot : isSetAt (t :: ts) 0 = false := by simp [isSetAt, isAt, Token.is, ht]
  rw [setCount_cons, hnot]
  rfl

theorem RestrictedSetter.setCount_after_lt (r : RestrictedSetter) :
    setCount r.after
      < setCount (r.opener :: r.word :: r.closer :: (r.behind ++ r.declaration)) := by
  have hset : isSetAt (r.opener :: r.word :: r.closer :: (r.behind ++ r.declaration)) 0 = true :=
    isSetAt_iff.2 ⟨r.opener, r.word, r.closer, _, rfl, r.opens, r.isSet, r.closes⟩
  have hcut : r.word :: r.closer :: (r.behind ++ r.declaration)
      = (r.word :: r.closer :: (r.behind ++ r.line)) ++ r.after := by
    simp [r.line_append_after]
  rw [setCount_cons, if_pos hset, hcut]
  exact Nat.lt_succ_of_le (setCount_le_append _ _)

/-- What an iteration does: it goes one index on, or moves the modifier of a restricted setter. -/
theorem setterStep_eq_some (h : setterStep config s = some s') :
    (s.index < s.tokens.length ∧ s' = { s with index := s.index + 1 }) ∨
      ∃ front modifier r, s.tokens = front ++ modifier :: RestrictedSetter.whole r ∧
        modifier.isKeyword = true ∧ s.index = front.length + r.gap.length + 2 ∧
        s' = ⟨writtenFor config front modifier r ++ r.after,
          (writtenFor config front modifier r).length, s.count + 1⟩ := by
  obtain ⟨hi, ⟨us, j, hr, rfl⟩ | ⟨-, rfl⟩⟩ := scan_eq_some h
  · obtain ⟨front, modifier, r, hts, hm, hindex⟩ := exists_of_relocation? hr
    rw [hts, hindex, relocation?_append config front hm r] at hr
    obtain ⟨rfl, rfl⟩ := Prod.mk.inj (Option.some.inj hr)
    exact .inr ⟨front, modifier, r, hts, hm, hindex, rfl⟩
  · exact .inl ⟨hi, rfl⟩

/-- **Less is left** behind the index after each iteration, though the index may get smaller. -/
theorem length_sub_setterStep (h : setterStep config s = some s') :
    s'.tokens.length - s'.index < s.tokens.length - s.index := by
  obtain ⟨hi, rfl⟩ | ⟨front, modifier, r, hts, -, hindex, rfl⟩ := setterStep_eq_some h
  · dsimp only
    omega
  · have hafter := congrArg List.length r.line_append_after
    rw [hts, hindex]
    simp only [List.length_append, List.length_cons, RestrictedSetter.whole,
      RestrictedSetter.gone] at hafter ⊢
    omega

/-- **Fewer are to come.**  An iteration that moves a modifier has its `(set)` behind it. -/
theorem setCount_setterStep (h : setterStep config s = some s') :
    s'.count + setCount (s'.tokens.drop (s'.index - 1))
      ≤ s.count + setCount (s.tokens.drop (s.index - 1)) := by
  obtain ⟨hi, rfl⟩ | ⟨front, modifier, r, hts, -, hindex, rfl⟩ := setterStep_eq_some h
  · exact Nat.add_le_add_left (setCount_drop_le s.tokens (by dsimp only; omega)) _
  · obtain ⟨written, hwritten⟩ := exists_writtenFor_eq config front modifier r
    have hnew : (written ++ [Token.identifier "set"] ++ r.after).drop
        ((written ++ [Token.identifier "set"]).length - 1) = .identifier "set" :: r.after := by
      rw [List.length_append, List.length_singleton, Nat.add_sub_cancel, List.append_assoc,
        List.drop_left, List.singleton_append]
    have hold : s.tokens.drop (s.index - 1)
        = r.opener :: r.word :: r.closer :: (r.behind ++ r.declaration) := by
      have hcut : s.tokens = (front ++ modifier :: r.gap)
          ++ r.opener :: r.word :: r.closer :: (r.behind ++ r.declaration) := by
        simp [hts, RestrictedSetter.whole, RestrictedSetter.gone]
      rw [hcut, hindex, List.drop_left' (by simp; omega)]
    have hlt := r.setCount_after_lt
    rw [hwritten, hold]
    dsimp only
    rw [hnew, setCount_cons_of_isIdentifier _ rfl]
    omega

/-! ### The loop ends -/

/-- The modifier of each setter that the loop has yet to come to stands ahead of it. -/
def NonePassed (before ts : List Token) : Prop :=
  ∀ front modifier r, before ++ ts = front ++ modifier :: RestrictedSetter.whole r →
    modifier.isKeyword = true → before.length ≤ front.length + r.gap.length + 2 →
    before.length ≤ front.length

/-- From a modifier up to the word of its setter there is no name. -/
theorem isIdentifier_eq_false_of_restrictedSetter (r : RestrictedSetter)
    (hm : modifier.isKeyword = true) (hi : front.length ≤ i)
    (hlt : i < front.length + r.gap.length + 2)
    (ht : (front ++ modifier :: r.whole)[i]? = some t) : t.isIdentifier = false := by
  have hmem : t ∈ modifier :: (r.gap ++ [r.opener]) := by
    have hcut : front ++ modifier :: r.whole
        = front ++ ((modifier :: (r.gap ++ [r.opener]))
          ++ r.word :: r.closer :: (r.behind ++ r.declaration)) := by
      simp [RestrictedSetter.whole, RestrictedSetter.gone]
    rw [hcut, List.getElem?_append_right hi, List.getElem?_append_left (by simp; omega)] at ht
    exact List.mem_of_getElem? ht
  rw [List.mem_cons, List.mem_append, List.mem_singleton] at hmem
  rcases hmem with rfl | hgap | rfl
  · rw [Token.isKeyword, beq_iff_eq] at hm
    simp [Token.isIdentifier, hm]
  · exact Bool.eq_false_iff.2 fun hid => by
      have htrivia := Token.isTrivia_of_isSpacing (r.gap_isSpacing t hgap)
      rw [isTrivia_of_isIdentifier hid] at htrivia
      cases htrivia
  · simp [Token.isIdentifier, (Token.is_iff.1 r.opens).1]

theorem nonePassed_nil (ts : List Token) : NonePassed [] ts := fun _ _ _ _ _ _ => Nat.zero_le _

/-- Behind a name nothing is passed. -/
theorem nonePassed_append_of_isIdentifier (before ts : List Token) (ht : t.isIdentifier = true) :
    NonePassed (before ++ [t]) ts := by
  intro front modifier r hts hm hle
  by_contra hlt
  have hget : (front ++ modifier :: r.whole)[before.length]? = some t := by
    rw [← hts]
    simp
  rw [List.length_append, List.length_singleton] at hle hlt
  rw [isIdentifier_eq_false_of_restrictedSetter r hm (by omega) (by omega) hget] at ht
  cases ht

/-- Behind a token that restricts no setter nothing more is passed. -/
theorem NonePassed.append_singleton {before : List Token} (h : NonePassed before (t :: ts))
    (hnone : (if t.isKeyword then restricted? ts else none) = none) :
    NonePassed (before ++ [t]) ts := by
  intro front modifier r hts hm hle
  rw [List.append_assoc, List.singleton_append] at hts
  rw [List.length_append, List.length_singleton] at hle ⊢
  have hfront := h front modifier r hts hm (by omega)
  rcases Nat.lt_or_eq_of_le hfront with hlt | heq
  · exact hlt
  · -- The token would be the modifier.
    obtain ⟨-, htail⟩ := List.append_inj hts heq
    obtain ⟨rfl, rfl⟩ := List.cons.inj htail
    rw [if_pos hm, r.restricted?_whole] at hnone
    cases hnone

/-- **The loop over restricted setters ends** from every place that has passed no modifier, with
    the outcome of the pass. -/
theorem ends_setterStep (config : Config) (before : List Token) (head? : Option Token)
    (ts : List Token) (n : Nat) (hhead : KnowsLine before head? ts)
    (hpassed : NonePassed before ts) :
    Ends (setterStep config) ⟨before ++ ts, before.length, n⟩
      (((relocateSettersAfter config head? ts).append before).counted n) := by
  -- The induction follows the pass, which comes to the modifier of a setter, the loop to its word.
  fun_induction relocateSettersAfter config head? ts generalizing before n with
  | case1 => exact .done (scan_of_length_le (by simp))
  | case2 head? t ts declaration hr line after ih =>
    obtain ⟨hm, hr⟩ := Option.ite_none_right_eq_some.1 hr
    obtain ⟨r, rfl, rfl⟩ := exists_restrictedSetter hr
    obtain rfl : head? = lineHead? before := hhead.eq_of_isKeyword hm
    -- Up to the word of the setter there is nothing to move.
    have hnone : ∀ k, before.length ≤ k → k < before.length + r.gap.length + 2 →
        relocation? config (before ++ t :: r.whole) k = none := by
      intro k hk hlt
      rw [Option.eq_none_iff_forall_ne_some]
      intro found hfound
      obtain ⟨u, hu, hid⟩ := isIdentifier_of_relocation? hfound
      rw [isIdentifier_eq_false_of_restrictedSetter r hm hk hlt hu] at hid
      cases hid
    have hlen : before.length + r.gap.length + 2 < (before ++ t :: r.whole).length := by
      simp [RestrictedSetter.whole, RestrictedSetter.gone]
      omega
    obtain ⟨written, hwritten⟩ := exists_writtenFor_eq config before t r
    have hrest := ih (writtenFor config before t r) (n + 1)
      (.inr (head?_dropWhile_isLinebreak r.declaration))
      (hwritten ▸ nonePassed_append_of_isIdentifier written r.after rfl)
    refine .skip (by omega) (fun k hk hlt => skips_scan (hnone k hk hlt))
      (.next (scan_of_some hlen (relocation?_append config before hm r)) ?_)
    simpa [setterStep, writtenFor, line, after, RestrictedSetter.line, RestrictedSetter.after,
      Edited.counted, Edited.append, Nat.add_assoc] using hrest
  | case3 head? t ts hnone ih =>
    have hrest := ih (before ++ [t]) n hhead.next (hpassed.append_singleton hnone)
    rw [← Edited.append_cons] at hrest
    have hnot : relocation? config (before ++ t :: ts) before.length = none := by
      rw [Option.eq_none_iff_forall_ne_some]
      intro found hfound
      obtain ⟨front, modifier, r, hts, hm, hindex⟩ := exists_of_relocation? hfound
      have := hpassed front modifier r hts hm (Nat.le_of_eq hindex)
      omega
    exact .skip_cons (skips_scan hnot) hrest

end Kotlinize
