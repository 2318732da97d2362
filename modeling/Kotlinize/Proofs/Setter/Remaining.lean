import Kotlinize.Proofs.Rewrite
import Kotlinize.Source.Tokenize

namespace Kotlinize

/-!
# Modifiers of setters that remain

Behind the pass for setters no `modifier(set)` should be left in front of a declaration.  The pass
goes on at the end of the line of the declaration that it has just changed, so what stands on the
rest of that line is never looked at.

* `SetNext`, `HoldsMark`, `HoldsRestriction` — `(set)` next in a text, and behind a keyword.
* `movedStretches` — what the pass leaves of each stretch of text up to the end of such a line.
* `holdsRestriction_append_setterLine` — no `modifier(set)` reaches across a line that the pass
  has written.
* `not_holdsRestriction_relocateSetters_iff` — when nothing remains: if none of the stretches
  holds a `modifier(set)`.
-/

variable {t : Token} {ts after : List Token}

/-! ### What should not remain -/

/-- `(set)` comes next in a text, spacing apart, and `after` follows it. -/
inductive SetNext : List Token → List Token → Prop where
  | set {opener word closer : Token} {after : List Token}
      (ho : Bracket.round.opens opener = true) (hw : word.is .identifier "set" = true)
      (hc : Bracket.round.closes closer = true) :
      SetNext (opener :: word :: closer :: after) after
  | spacing {t : Token} {ts after : List Token} (ht : t.isSpacing = true)
      (h : SetNext ts after) : SetNext (t :: ts) after

/-- Something holds of the text behind a keyword. -/
def BehindKeyword (P : List Token → Prop) (ts : List Token) : Prop :=
  ∃ before keyword rest, ts = before ++ keyword :: rest ∧ keyword.isKeyword = true ∧ P rest

/-- A text holds `modifier(set)`. -/
def HoldsMark (ts : List Token) : Prop := BehindKeyword (fun rest => ∃ after, SetNext rest after) ts

/-- A text holds `modifier(set)`, and more than spacing behind it. -/
def HoldsRestriction (ts : List Token) : Prop :=
  BehindKeyword (fun rest => ∃ after, SetNext rest after ∧ ∃ t ∈ after, t.isSpacing = false) ts

section

variable {P : List Token → Prop}

@[simp] theorem not_behindKeyword_nil : ¬ BehindKeyword P [] := by
  simp [BehindKeyword]

@[simp] theorem behindKeyword_cons :
    BehindKeyword P (t :: ts) ↔ (t.isKeyword = true ∧ P ts) ∨ BehindKeyword P ts := by
  constructor
  · rintro ⟨before, keyword, rest, hts, hk, hP⟩
    obtain ⟨rfl, hcons⟩ | ⟨before', rfl, rfl⟩ := List.cons_eq_append_iff.1 hts
    · obtain ⟨rfl, rfl⟩ := List.cons.inj hcons
      exact .inl ⟨hk, hP⟩
    · exact .inr ⟨before', keyword, rest, rfl, hk, hP⟩
  · rintro (⟨hk, hP⟩ | ⟨before, keyword, rest, rfl, hk, hP⟩)
    · exact ⟨[], t, ts, rfl, hk, hP⟩
    · exact ⟨t :: before, keyword, rest, rfl, hk, hP⟩

theorem behindKeyword_append_singleton :
    BehindKeyword P (ts ++ [t])
      ↔ BehindKeyword (fun rest => P (rest ++ [t])) ts ∨ (t.isKeyword = true ∧ P []) := by
  induction ts with
  | nil => simp
  | cons u ts ih => simp [ih, or_assoc]

end

/-! ### What the pass looks for -/

theorem setNext_append_of_isSpacing {spacing : List Token}
    (hs : ∀ t ∈ spacing, t.isSpacing = true) (h : SetNext ts after) :
    SetNext (spacing ++ ts) after := by
  induction spacing with
  | nil => exact h
  | cons t spacing ih =>
    rw [List.forall_mem_cons] at hs
    exact .spacing hs.1 (ih hs.2)

/-- The pass looks for `(set)` with more than spacing behind it. -/
theorem isSome_restricted?_iff :
    (restricted? ts).isSome = true
      ↔ ∃ after, SetNext ts after ∧ ∃ t ∈ after, t.isSpacing = false := by
  constructor
  · intro h
    obtain ⟨declaration, hd⟩ := Option.isSome_iff_exists.1 h
    obtain ⟨before, opener, word, closer, behind, rfl, hb, ho, hw, hc, -, u, rest, rfl, hu⟩ :=
      restricted?_eq_some hd
    exact ⟨_, setNext_append_of_isSpacing hb (.set ho hw hc), u, by simp, hu⟩
  · rintro ⟨after, hset, u, hmem, hu⟩
    induction hset with
    | @set opener word closer after ho hw hc =>
      have hopener := isSpacing_eq_false (isTrivia_of_opens ho)
      have hd : (opener :: word :: closer :: after).dropWhile Token.isSpacing
          = opener :: word :: closer :: after :=
        List.dropWhile_cons_of_neg (by simp [hopener])
      have hsplit := List.takeWhile_append_dropWhile (p := Token.isSpacing) (l := after)
      unfold restricted?
      rw [hd]
      simp only [ho, hw, hc, Bool.and_self, if_true]
      split
      · rename_i hnil
        rw [hnil, List.append_nil] at hsplit
        rw [← hsplit] at hmem
        simp [of_mem_takeWhile hmem] at hu
      · rfl
    | spacing ht _ ih =>
      have h := ih hmem
      unfold restricted? at h ⊢
      rwa [List.dropWhile_cons_of_pos ht]

theorem holdsRestriction_iff_behindKeyword :
    HoldsRestriction ts ↔ BehindKeyword (fun rest => (restricted? rest).isSome = true) ts := by
  simp only [HoldsRestriction, isSome_restricted?_iff]

/-- Whether a text holds `modifier(set)`, and more than spacing behind it. -/
def holdsRestriction : List Token → Bool
  | [] => false
  | t :: ts => (t.isKeyword && (restricted? ts).isSome) || holdsRestriction ts

theorem holdsRestriction_iff : holdsRestriction ts = true ↔ HoldsRestriction ts := by
  rw [holdsRestriction_iff_behindKeyword]
  induction ts with
  | nil => simp [holdsRestriction]
  | cons t ts ih => simp [holdsRestriction, ih]

/-! ### Lines that the pass writes -/

theorem SetNext.append (h : SetNext ts after) (us : List Token) :
    SetNext (ts ++ us) (after ++ us) := by
  induction h with
  | set ho hw hc => exact .set ho hw hc
  | spacing ht _ ih => exact .spacing ht ih

theorem SetNext.head (h : SetNext (t :: ts) after) :
    Bracket.round.opens t = true ∨ t.isSpacing = true ∧ SetNext ts after := by
  cases h with
  | set ho _ _ => exact .inl ho
  | spacing ht h => exact .inr ⟨ht, h⟩

section

variable (config : Config) (head? : Option Token) {modifier : Token}

/-- A line of the pass starts with a line end. -/
theorem setterLine_eq (modifier : Token)
    (ha : after.head?.all Token.isLinebreak = true) :
    ∃ (lineEnd : Token) (indent : String), lineEnd.kind = .linebreak ∧
      setterLine config head? modifier after
        = [lineEnd, .whitespace indent, modifier, .space, .identifier "set"] := by
  refine ⟨after.head?.getD .newline, _, ?_, rfl⟩
  simpa [Token.isLinebreak] using isLinebreak_lineEnd ha

theorem not_setNext_setterLine (hm : modifier.isKeyword = true)
    (ha : after.head?.all Token.isLinebreak = true) (ys : List Token) {r : List Token} :
    ¬ SetNext (setterLine config head? modifier after ++ ys) r := by
  obtain ⟨lineEnd, indent, hl, hline⟩ := setterLine_eq config head? modifier ha
  have hm' := isSpacing_eq_false (isTrivia_of_isKeyword hm)
  rw [Token.isKeyword, beq_iff_eq] at hm
  rw [hline]
  intro h
  obtain ho | ⟨-, h⟩ := h.head
  · simp [Bracket.opens, hl] at ho
  obtain ho | ⟨-, h⟩ := h.head
  · simp [Bracket.opens, Token.whitespace] at ho
  obtain ho | ⟨hs, -⟩ := h.head
  · simp [Bracket.opens, hm] at ho
  · simp [hm'] at hs

/-- A `(set)` that starts in front of a line end ends in front of it, unless only spacing stands
    between. -/
theorem SetNext.of_append {lineEnd : Token} {xs zs r : List Token}
    (hl : lineEnd.kind = .linebreak) (hnone : ∀ r, ¬ SetNext (lineEnd :: zs) r)
    (h : SetNext (xs ++ lineEnd :: zs) r) : ∃ r', SetNext xs r' := by
  generalize hts : xs ++ lineEnd :: zs = ts at h
  induction h generalizing xs with
  | @set opener word closer r ho hw hc =>
    -- None of the three tokens is the line end, so all of them stand in `xs`.
    obtain _ | ⟨x, _ | ⟨y, _ | ⟨z, xs⟩⟩⟩ := xs
    · obtain ⟨rfl, -⟩ := List.cons.inj hts
      simp [Bracket.opens, hl] at ho
    · obtain ⟨-, rfl, -⟩ : x = opener ∧ lineEnd = word ∧ zs = closer :: r := by simpa using hts
      simp [hl] at hw
    · obtain ⟨-, -, rfl, -⟩ : x = opener ∧ y = word ∧ lineEnd = closer ∧ zs = r := by
        simpa using hts
      simp [Bracket.closes, hl] at hc
    · obtain ⟨rfl, rfl, rfl, -⟩ : x = opener ∧ y = word ∧ z = closer ∧ _ = r := by
        simpa using hts
      exact ⟨xs, .set ho hw hc⟩
  | @spacing t ts r ht h ih =>
    obtain _ | ⟨x, xs⟩ := xs
    · rw [List.nil_append] at hts
      exact absurd (hts ▸ SetNext.spacing ht h) (hnone r)
    · obtain ⟨rfl, hrest⟩ := List.cons.inj hts
      obtain ⟨r', h'⟩ := ih hrest
      exact ⟨r', .spacing ht h'⟩

/-- In front of such a line the pass sees all there is of a `(set)`. -/
theorem setNext_append_setterLine_iff (hm : modifier.isKeyword = true)
    (ha : after.head?.all Token.isLinebreak = true) (xs ys : List Token) :
    (∃ r, SetNext (xs ++ (setterLine config head? modifier after ++ ys)) r ∧
        ∃ u ∈ r, u.isSpacing = false)
      ↔ ∃ r, SetNext xs r := by
  constructor
  · rintro ⟨r, h, -⟩
    have hnone := fun r => not_setNext_setterLine config head? hm ha ys (r := r)
    obtain ⟨lineEnd, indent, hl, hline⟩ := setterLine_eq config head? modifier ha
    rw [hline] at h hnone
    exact h.of_append hl hnone
  · rintro ⟨r, h⟩
    have hmodifier := isSpacing_eq_false (isTrivia_of_isKeyword hm)
    exact ⟨_, h.append _, modifier, by simp [setterLine], hmodifier⟩

/-- **No `modifier(set)` reaches across a line that the pass has written.** -/
theorem holdsRestriction_append_setterLine (hm : modifier.isKeyword = true)
    (ha : after.head?.all Token.isLinebreak = true) (xs ys : List Token) :
    HoldsRestriction (xs ++ (setterLine config head? modifier after ++ ys))
      ↔ HoldsMark xs ∨ HoldsRestriction ys := by
  induction xs with
  | nil =>
    obtain ⟨lineEnd, indent, hl, hline⟩ := setterLine_eq config head? modifier ha
    have hspace : ∀ r, ¬ SetNext (.space :: .identifier "set" :: ys) r := by
      intro r h
      obtain ho | ⟨-, h⟩ := h.head
      · simp [Bracket.opens, Token.space, Token.whitespace] at ho
      obtain ho | ⟨hs, -⟩ := h.head
      · simp [Bracket.opens, Token.identifier] at ho
      · simp [Token.isSpacing, Token.identifier] at hs
    have hkeywords : lineEnd.isKeyword = false ∧ (Token.whitespace indent).isKeyword = false ∧
        Token.space.isKeyword = false ∧ (Token.identifier "set").isKeyword = false := by
      simp [Token.isKeyword, hl, Token.whitespace, Token.space, Token.identifier]
    simp [hline, HoldsRestriction, HoldsMark, hspace, hkeywords]
  | cons x xs ih =>
    have hx := setNext_append_setterLine_iff config head? hm ha xs ys
    unfold HoldsRestriction HoldsMark at ih ⊢
    rw [List.cons_append, behindKeyword_cons, behindKeyword_cons, hx, ih, or_assoc]

end

/-! ### What the pass leaves -/

/-- The stretches of a text up to the end of a line whose declaration the pass changes, each
    from the end of the one before it: the tokens in front of the modifier that the pass moves,
    and those on the rest of the line of its declaration.  `pre` are the tokens of the first
    stretch that the pass has been over. -/
def movedStretches (pre : List Token) : List Token → List (List Token)
  | [] => []
  | t :: ts =>
    match _h : if t.isKeyword then restricted? ts else none with
    | some declaration =>
      (pre ++ declaration.takeWhile fun u => !u.isLinebreak)
        :: movedStretches [] (declaration.dropWhile fun u => !u.isLinebreak)
    | none => movedStretches (pre ++ [t]) ts
termination_by ts => ts.length
decreasing_by
  · split at _h
    · have := length_lt_of_restricted? _h
      have := (List.dropWhile_sublist (fun u : Token => !u.isLinebreak)
        (l := declaration)).length_le
      simp only [List.length_cons]
      omega
    · cases _h
  · exact Nat.lt_succ_self _

theorem movedStretches_of_eq_some {pre declaration : List Token}
    (h : (if t.isKeyword then restricted? ts else none) = some declaration) :
    movedStretches pre (t :: ts)
      = (pre ++ declaration.takeWhile fun u => !u.isLinebreak)
        :: movedStretches [] (declaration.dropWhile fun u => !u.isLinebreak) := by
  rw [movedStretches]
  split <;> simp_all

theorem movedStretches_of_eq_none {pre : List Token}
    (h : (if t.isKeyword then restricted? ts else none) = none) :
    movedStretches pre (t :: ts) = movedStretches (pre ++ [t]) ts := by
  rw [movedStretches]
  split <;> simp_all

/-- The pass behind tokens `pre` that it has been over since the last line that it wrote, without
    finding a modifier to move. -/
theorem holdsRestriction_relocateSettersAfter_iff (config : Config) (head? : Option Token)
    (pre ts : List Token)
    (hpre : ¬ BehindKeyword (fun rest => (restricted? (rest ++ ts)).isSome = true) pre) :
    HoldsRestriction (pre ++ (relocateSettersAfter config head? ts).tokens)
      ↔ ∃ stretch ∈ movedStretches pre ts, HoldsMark stretch := by
  fun_induction relocateSettersAfter config head? ts generalizing pre with
  | case1 => simpa [movedStretches, holdsRestriction_iff_behindKeyword] using hpre
  | case2 head? t ts declaration hr line after ih =>
    have hm : t.isKeyword = true ∧ restricted? ts = some declaration :=
      Option.ite_none_right_eq_some.1 hr
    have hend : after.head?.all Token.isLinebreak = true := head?_dropWhile_isLinebreak declaration
    -- Behind the new line the pass starts afresh: no stretch goes on across it.
    have hrest := ih [] (by simp)
    rw [List.nil_append] at hrest
    have hline := holdsRestriction_append_setterLine config head? hm.1 hend
      (pre ++ line) (relocateSettersAfter config none after).tokens
    rw [hrest] at hline
    rw [movedStretches_of_eq_some hr]
    simpa using hline
  | case3 head? t ts hr ih =>
    have hpre' : ¬ BehindKeyword (fun rest => (restricted? (rest ++ ts)).isSome = true)
        (pre ++ [t]) := by
      rw [behindKeyword_append_singleton]
      rintro (h | ⟨hk, hs⟩)
      · simp only [List.append_assoc, List.singleton_append] at h
        exact hpre h
      · simp [hk, Option.isSome_iff_ne_none] at hr hs
        exact hs hr
    have h := ih (pre ++ [t]) hpre'
    rw [movedStretches_of_eq_none hr]
    simpa using h

/-- **When nothing remains behind the pass for setters.**  On every list of tokens and with any
    configuration: no `modifier(set)` with more than spacing behind it is left if and only if
    none of the stretches that end with the line of a changed declaration holds another
    `modifier(set)`, once its own is taken out. -/
theorem not_holdsRestriction_relocateSetters_iff (config : Config) (ts : List Token) :
    ¬ HoldsRestriction (relocateSetters config ts).tokens
      ↔ ∀ stretch ∈ movedStretches [] ts, ¬ HoldsMark stretch := by
  have h := holdsRestriction_relocateSettersAfter_iff config none [] ts (by simp)
  rw [List.nil_append] at h
  rw [relocateSetters, h]
  simp

/-- Of two declarations on one line, the second one keeps its modifier. -/
theorem holdsRestriction_relocateSetters_same_line :
    ¬ ∀ (config : Config) (source : String) (ts : List Token), tokenize source = .ok ts →
      ¬ HoldsRestriction (relocateSetters config ts).tokens := by
  intro hall
  have hleft : (tokenize "private(set) var a:A;private(set) var b:B").toOption.map
      (fun ts => holdsRestriction (relocateSetters .default ts).tokens) = some true := by
    cbv
  cases h : tokenize "private(set) var a:A;private(set) var b:B" with
  | error e => simp [h, Except.toOption] at hleft
  | ok ts =>
    have hholds : holdsRestriction (relocateSetters .default ts).tokens = true := by
      simpa [h, Except.toOption] using hleft
    exact hall .default _ ts h (holdsRestriction_iff.1 hholds)

end Kotlinize
