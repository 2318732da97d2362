import Kotlinize.Source.Lexeme
import Mathlib

namespace Kotlinize

/-!
# Tokens that run on

Read again, a token ends where it ended before only if the text behind it does not go on with it:
a word goes on with letters and digits, an operator with the rest of a longer one, two slashes are
a comment.

* `goesOn`, `Token.runsOn` — whether a text behind a token goes on with it, kind by kind.
* `LooksAhead` — how far such a test looks: never past a character of `stops`, and never behind a
  letter, whichever it is.
* `apart` — whether no token of a list runs on into what follows it.
-/

/-! ### The tests -/

/-- Whether the characters behind an operator or a mark go on with it: they make a longer
    operator, a comment, an attribute or directive, or a literal with hashes. -/
def symbolGoesOn (text rest : List Char) : Bool :=
  (operators.any fun op => decide (text.length < op.length) && op.isPrefixOf (text ++ rest))
    || (text == ['/'] && rest.head?.any fun c => c == '/' || c == '*')
    || ((text == ['@'] || text == ['#']) && rest.head?.any isNameStart)
    || (text == ['#'] && (Lexeme.literalHashes? rest).isSome)

/-- Whether the characters behind a lexeme go on with it.  A name in backticks, a bracket and a
    block comment have an end of their own, and so has a literal, unless it is empty and a third
    quote follows. -/
def goesOn (kind : TokenKind) (text rest : List Char) : Bool :=
  match kind with
  | .identifier | .keyword => text.head? != some '\x60' && rest.head?.any isNamePart
  | .number => numberLength rest != 0
  | .stringLiteral => text == ['"', '"'] && rest.head?.any (· == '"')
  | .symbol => symbolGoesOn text rest
  | _ => false

/-- Whether the characters behind a token go on with it. -/
def Token.runsOn (t : Token) (rest : List Char) : Bool := goesOn t.kind t.text.toList rest

/-! ### How far the tests look -/

/-- Characters that end whatever stands in front of them. -/
def stops : List Char :=
  [' ', '\t', '\n', '\r', '(', ')', '[', ']', '\x7b', '\x7d', ',', ':']

/-- The first letters of the keywords that edits put into each other's place. -/
def initials : List Char := ['l', 'v']

/-- A literal starts with a quote behind some hashes. -/
theorem isSome_literalHashes? (cs : List Char) :
    (Lexeme.literalHashes? cs).isSome = (cs.dropWhile (· == '#')).head?.any (· == '"') := by
  have hdrop : cs.drop (cs.takeWhile (· == '#')).length = cs.dropWhile (· == '#') := by
    have hsplit := List.takeWhile_append_dropWhile (p := (· == '#')) (l := cs)
    have hleft : (cs.takeWhile (· == '#') ++ cs.dropWhile (· == '#')).drop
        (cs.takeWhile (· == '#')).length = cs.dropWhile (· == '#') := List.drop_left
    rwa [hsplit] at hleft
  unfold Lexeme.literalHashes?
  dsimp only
  rw [hdrop]
  cases h : (cs.dropWhile (· == '#')).head? with
  | none => rfl
  | some c =>
    by_cases hc : c = '"'
    · rw [hc]
      rfl
    · have hne : some c ≠ some '"' := fun heq => hc (Option.some.inj heq)
      rw [if_neg hne, Option.any_some, beq_false_of_ne hc]
      rfl

theorem isSome_literalHashes?_cons (c : Char) (cs : List Char) :
    (Lexeme.literalHashes? (c :: cs)).isSome
      = if c == '#' then (Lexeme.literalHashes? cs).isSome else c == '"' := by
  rw [isSome_literalHashes?, isSome_literalHashes?, List.dropWhile_cons]
  split <;> rfl

theorem isSome_literalHashes?_of_ne {c : Char} (hh : (c == '#') = false)
    (hq : (c == '"') = false) (cs : List Char) :
    (Lexeme.literalHashes? (c :: cs)).isSome = false := by
  rw [isSome_literalHashes?_cons, hh, hq]
  rfl

/-- A number starts with a part of one, or with a point in front of a digit. -/
theorem numberLength_cons_ne_zero (c : Char) (cs : List Char) :
    (numberLength (c :: cs) != 0)
      = (isNumberPart c || (c == '.' && cs.head?.any Char.isDigit)) := by
  rw [numberLength]
  split
  · rename_i h
    rw [h]
    rfl
  · rename_i h
    rw [Bool.not_eq_true] at h
    rw [h]
    rfl

/-- What a test of the characters ahead may depend on. -/
structure LooksAhead (f : List Char → Bool) : Prop where
  /-- Nothing ahead passes no test. -/
  nil : f [] = false
  /-- A stop and what follows it have no part in the test. -/
  stop : ∀ (p : List Char) (s : Char) (rest : List Char), s ∈ stops → f (p ++ s :: rest) = f p
  /-- What passes goes on passing with more behind it. -/
  grow : ∀ p rest : List Char, f p = true → f (p ++ rest) = true
  /-- Which initial stands ahead, and what follows it, has no part in the test. -/
  initial : ∀ (p : List Char) (c d : Char) (as bs : List Char), c ∈ initials → d ∈ initials →
    f (p ++ c :: as) = f (p ++ d :: bs)

theorem of_mem_stops {q : Char → Bool} (h : stops.all q = true) {s : Char} (hs : s ∈ stops) :
    q s = true :=
  List.all_eq_true.1 h s hs

theorem of_mem_initials {q : Char → Bool} (h : initials.all q = true) {c : Char}
    (hc : c ∈ initials) : q c = true :=
  List.all_eq_true.1 h c hc

namespace LooksAhead

variable {f g : List Char → Bool}

theorem const_false : LooksAhead fun _ => false where
  nil := rfl
  stop := fun _ _ _ _ => rfl
  grow := fun _ _ h => h
  initial := fun _ _ _ _ _ _ _ => rfl

theorem or (hf : LooksAhead f) (hg : LooksAhead g) : LooksAhead fun rest => f rest || g rest where
  nil := by rw [hf.nil, hg.nil]; rfl
  stop := fun p s rest hs => by rw [hf.stop p s rest hs, hg.stop p s rest hs]
  grow := by
    intro p rest h
    rw [Bool.or_eq_true] at h ⊢
    exact h.imp (hf.grow p rest) (hg.grow p rest)
  initial := fun p c d as bs hc hd => by
    rw [hf.initial p c d as bs hc hd, hg.initial p c d as bs hc hd]

/-- A test that is only made under a condition. -/
theorem and (b : Bool) (hf : LooksAhead f) : LooksAhead fun rest => b && f rest := by
  cases b
  · exact const_false
  · exact hf

theorem any {α : Type} {l : List α} {h : α → List Char → Bool}
    (hh : ∀ a ∈ l, LooksAhead (h a)) : LooksAhead fun rest => l.any fun a => h a rest := by
  induction l with
  | nil => exact const_false
  | cons a l ih =>
    have hrest := ih fun b hb => hh b (List.mem_cons_of_mem _ hb)
    exact (hh a List.mem_cons_self).or hrest

/-- A test of the next character. -/
theorem head {q : Char → Bool} (hs : (stops.all fun s => !q s) = true)
    (hi : q 'l' = q 'v') : LooksAhead fun rest => rest.head?.any q where
  nil := rfl
  stop := by
    intro p s rest hmem
    cases p with
    | nil =>
      have hq : q s = false := by simpa using of_mem_stops hs hmem
      exact hq
    | cons c p => rfl
  grow := by
    intro p rest h
    cases p with
    | nil => cases h
    | cons c p => exact h
  initial := by
    intro p c d as bs hc hd
    cases p with
    | nil =>
      have hq : ∀ e ∈ initials, q e = q 'v' := by
        intro e he
        simp only [initials, List.mem_cons, List.not_mem_nil, or_false] at he
        rcases he with rfl | rfl
        · exact hi
        · rfl
      show q c = q d
      rw [hq c hc, hq d hd]
    | cons e p => rfl

/-- A character that an operator does not hold takes no part in finding the operator. -/
theorem prefix_append_cons_iff {op q rest : List Char} {s : Char} (hs : s ∉ op) :
    op <+: q ++ s :: rest ↔ op <+: q := by
  constructor
  · intro h
    by_cases hlen : op.length ≤ q.length
    · exact List.prefix_of_prefix_length_le h (List.prefix_append _ _) hlen
    · -- An operator that is longer than the text in front of the character holds it.
      have hq : q ++ [s] <+: op := by
        apply List.prefix_of_prefix_length_le _ h
        · rw [List.length_append, List.length_singleton]
          omega
        · exact ⟨rest, by simp⟩
      exact absurd (hq.subset (by simp)) hs
  · intro h
    exact h.trans (List.prefix_append _ _)

/-- A test for the rest of a longer operator. -/
theorem operator (text : List Char) {op : List Char} (hs : ∀ s ∈ stops, s ∉ op)
    (hi : ∀ c ∈ initials, c ∉ op) :
    LooksAhead fun rest => decide (text.length < op.length) && op.isPrefixOf (text ++ rest) where
  nil := by
    by_cases hlen : text.length < op.length
    · have hnot : ¬ op <+: text ++ [] := by
        intro h
        have hle := h.length_le
        rw [List.append_nil] at hle
        omega
      rw [Bool.and_eq_false_iff]
      right
      rw [← Bool.not_eq_true, List.isPrefixOf_iff_prefix]
      exact hnot
    · rw [decide_eq_false hlen]
      rfl
  stop := by
    intro p s rest hmem
    congr 1
    rw [Bool.eq_iff_iff, List.isPrefixOf_iff_prefix, List.isPrefixOf_iff_prefix,
      ← List.append_assoc, prefix_append_cons_iff (hs s hmem)]
  grow := by
    intro p rest h
    rw [Bool.and_eq_true, List.isPrefixOf_iff_prefix] at h ⊢
    rw [← List.append_assoc]
    exact ⟨h.1, h.2.trans (List.prefix_append _ _)⟩
  initial := by
    intro p c d as bs hc hd
    congr 1
    rw [Bool.eq_iff_iff, List.isPrefixOf_iff_prefix, List.isPrefixOf_iff_prefix,
      ← List.append_assoc, ← List.append_assoc, prefix_append_cons_iff (hi c hc),
      prefix_append_cons_iff (hi d hd)]

/-- A number looks at the next character, and past a point at the one behind it. -/
theorem number : LooksAhead fun rest => numberLength rest != 0 := by
  have hdigit : LooksAhead fun rest => rest.head?.any Char.isDigit :=
    head (by decide) (by decide)
  -- Past the first character the test is one of a digit, if it looks further at all.
  have hcons := numberLength_cons_ne_zero
  constructor
  · rfl
  · intro p s rest hs
    cases p with
    | nil =>
      have hq : (isNumberPart s || s == '.') = false := by
        simpa using of_mem_stops (q := fun s => !(isNumberPart s || s == '.')) (by decide) hs
      rw [Bool.or_eq_false_iff] at hq
      show (numberLength (s :: rest) != 0) = false
      rw [hcons, hq.1, hq.2]
      rfl
    | cons c p =>
      show (numberLength (c :: (p ++ s :: rest)) != 0) = (numberLength (c :: p) != 0)
      rw [hcons, hcons, hdigit.stop p s rest hs]
  · intro p rest h
    cases p with
    | nil => cases h
    | cons c p =>
      rw [hcons, Bool.or_eq_true, Bool.and_eq_true] at h
      show (numberLength (c :: (p ++ rest)) != 0) = true
      rw [hcons, Bool.or_eq_true, Bool.and_eq_true]
      exact h.imp id fun h => ⟨h.1, hdigit.grow p rest h.2⟩
  · intro p c d as bs hc hd
    cases p with
    | nil =>
      have hq : ∀ e ∈ initials, isNumberPart e = true := fun e he =>
        of_mem_initials (by decide) he
      show (numberLength (c :: as) != 0) = (numberLength (d :: bs) != 0)
      rw [hcons, hcons, hq c hc, hq d hd]
      rfl
    | cons e p =>
      show (numberLength (e :: (p ++ c :: as)) != 0) = (numberLength (e :: (p ++ d :: bs)) != 0)
      rw [hcons, hcons, hdigit.initial p c d as bs hc hd]

/-- A literal with hashes looks past the hashes. -/
theorem literal : LooksAhead fun rest => (Lexeme.literalHashes? rest).isSome := by
  -- The test goes on behind a hash, so each part is an induction over what stands ahead.
  have hcons := isSome_literalHashes?_cons
  constructor
  · rfl
  · intro p s rest hs
    induction p with
    | nil =>
      have h₁ : (s == '#') = false := by
        simpa using of_mem_stops (q := fun s => !(s == '#')) (by decide) hs
      have h₂ : (s == '"') = false := by
        simpa using of_mem_stops (q := fun s => !(s == '"')) (by decide) hs
      exact isSome_literalHashes?_of_ne h₁ h₂ rest
    | cons c p ih => rw [List.cons_append, hcons, hcons, ih]
  · intro p rest h
    induction p with
    | nil => cases h
    | cons c p ih =>
      rw [hcons] at h
      rw [List.cons_append, hcons]
      split
      · rename_i hc
        rw [if_pos hc] at h
        exact ih h
      · rename_i hc
        rw [if_neg hc] at h
        exact h
  · intro p c d as bs hc hd
    induction p with
    | nil =>
      have hno : ∀ e ∈ initials, ∀ cs : List Char,
          (Lexeme.literalHashes? (e :: cs)).isSome = false := by
        intro e he cs
        have h₁ : (e == '#') = false := by
          simpa using of_mem_initials (q := fun e => !(e == '#')) (by decide) he
        have h₂ : (e == '"') = false := by
          simpa using of_mem_initials (q := fun e => !(e == '"')) (by decide) he
        exact isSome_literalHashes?_of_ne h₁ h₂ cs
      show (Lexeme.literalHashes? (c :: as)).isSome = (Lexeme.literalHashes? (d :: bs)).isSome
      rw [hno c hc as, hno d hd bs]
    | cons e p ih => rw [List.cons_append, List.cons_append, hcons, hcons, ih]

/-- No lexeme looks past a stop or an initial. -/
theorem lexeme (kind : TokenKind) (text : List Char) : LooksAhead (goesOn kind text) := by
  have hstops : ∀ op ∈ operators, ∀ s ∈ stops, s ∉ op := by
    have h : (operators.all fun op => stops.all fun s => !op.contains s) = true := by decide
    intro op hop s hs
    simpa using List.all_eq_true.1 (List.all_eq_true.1 h op hop) s hs
  have hinitials : ∀ op ∈ operators, ∀ c ∈ initials, c ∉ op := by
    have h : (operators.all fun op => initials.all fun c => !op.contains c) = true := by decide
    intro op hop c hc
    simpa using List.all_eq_true.1 (List.all_eq_true.1 h op hop) c hc
  have hword : LooksAhead fun rest => text.head? != some '\x60' && rest.head?.any isNamePart :=
    (head (by decide) (by decide)).and _
  cases kind with
  | identifier => exact hword
  | keyword => exact hword
  | number => exact number
  | stringLiteral => exact (head (by decide) (by decide)).and _
  | symbol =>
    -- The four tests of a symbol, in their order.
    have hoperators := any (l := operators) fun op hop =>
      operator text (hstops op hop) (hinitials op hop)
    have hcomment := (head (q := fun c => c == '/' || c == '*') (by decide) (by decide)).and
      (text == ['/'])
    have hattribute := (head (q := isNameStart) (by decide) (by decide)).and
      (text == ['@'] || text == ['#'])
    exact ((hoperators.or hcomment).or hattribute).or (literal.and (text == ['#']))
  | startOfScope => exact const_false
  | endOfScope => exact const_false
  | whitespace => exact const_false
  | linebreak => exact const_false
  | comment => exact const_false

end LooksAhead

/-! ### Lists of tokens -/

/-- Whether no token of a list runs on into the tokens behind it and the text `rest` behind the
    list. -/
def apart (rest : List Char) : List Token → Bool
  | [] => true
  | t :: ts => !t.runsOn (spelling ts ++ rest) && apart rest ts

@[simp] theorem apart_nil (rest : List Char) : apart rest [] = true := rfl

theorem spelling_cons (t : Token) (ts : List Token) :
    spelling (t :: ts) = t.text.toList ++ spelling ts := List.flatMap_cons

theorem apart_cons_iff {rest : List Char} {t : Token} {ts : List Token} :
    apart rest (t :: ts) = true
      ↔ t.runsOn (spelling ts ++ rest) = false ∧ apart rest ts = true := by
  rw [apart, Bool.and_eq_true, Bool.not_eq_true']

theorem apart_append_iff {rest : List Char} {as bs : List Token} :
    apart rest (as ++ bs) = true
      ↔ apart (spelling bs ++ rest) as = true ∧ apart rest bs = true := by
  induction as with
  | nil => exact ⟨fun h => ⟨rfl, h⟩, fun h => h.2⟩
  | cons t as ih =>
    rw [List.cons_append, apart_cons_iff, apart_cons_iff, ih, spelling_append, List.append_assoc,
      and_assoc]

/-- A stop behind a list keeps its tokens apart from what follows. -/
theorem apart_append_stop {s : Char} (hs : s ∈ stops) (p rest : List Char) (ts : List Token) :
    apart (p ++ s :: rest) ts = apart p ts := by
  induction ts with
  | nil => rfl
  | cons t ts ih =>
    have ht : t.runsOn (spelling ts ++ (p ++ s :: rest)) = t.runsOn (spelling ts ++ p) := by
      rw [← List.append_assoc]
      exact (LooksAhead.lexeme t.kind t.text.toList).stop _ s rest hs
    rw [apart, apart, ht, ih]

theorem apart_stop {s : Char} (hs : s ∈ stops) (rest : List Char) (ts : List Token) :
    apart (s :: rest) ts = apart [] ts :=
  apart_append_stop hs [] rest ts

/-- Tokens that are apart stay so when text behind them goes. -/
theorem apart_of_append {p rest : List Char} {ts : List Token}
    (h : apart (p ++ rest) ts = true) : apart p ts = true := by
  induction ts with
  | nil => rfl
  | cons t ts ih =>
    rw [apart_cons_iff] at h ⊢
    refine ⟨?_, ih h.2⟩
    cases hr : t.runsOn (spelling ts ++ p) with
    | false => rfl
    | true =>
      have hgrow := (LooksAhead.lexeme t.kind t.text.toList).grow _ rest hr
      rw [List.append_assoc] at hgrow
      rw [← hgrow]
      exact h.1

/-- It does not matter to the tokens in front which of the initials a keyword starts with. -/
theorem apart_append_initial {c d : Char} (hc : c ∈ initials) (hd : d ∈ initials)
    (p as bs : List Char) (ts : List Token) :
    apart (p ++ c :: as) ts = apart (p ++ d :: bs) ts := by
  induction ts with
  | nil => rfl
  | cons t ts ih =>
    have ht : t.runsOn (spelling ts ++ (p ++ c :: as))
        = t.runsOn (spelling ts ++ (p ++ d :: bs)) := by
      rw [← List.append_assoc, ← List.append_assoc]
      exact (LooksAhead.lexeme t.kind t.text.toList).initial _ c d as bs hc hd
    rw [apart, apart, ht, ih]

/-! ### Texts that start alike -/

/-- Two texts that agree, or agree up to an initial in either of them. -/
inductive SameStart : List Char → List Char → Prop where
  | refl (cs : List Char) : SameStart cs cs
  | initial (p : List Char) (c d : Char) (as bs : List Char) (hc : c ∈ initials)
      (hd : d ∈ initials) : SameStart (p ++ c :: as) (p ++ d :: bs)

namespace SameStart

variable {cs ds : List Char}

theorem append (p : List Char) (h : SameStart cs ds) : SameStart (p ++ cs) (p ++ ds) := by
  cases h with
  | refl => exact .refl _
  | initial q c d as bs hc hd =>
    rw [← List.append_assoc, ← List.append_assoc]
    exact .initial (p ++ q) c d as bs hc hd

theorem apart_eq (h : SameStart cs ds) (ts : List Token) : apart cs ts = apart ds ts := by
  cases h with
  | refl => rfl
  | initial p c d as bs hc hd => exact apart_append_initial hc hd p as bs ts

theorem runsOn_eq (h : SameStart cs ds) (t : Token) : t.runsOn cs = t.runsOn ds := by
  cases h with
  | refl => rfl
  | initial p c d as bs hc hd =>
    exact (LooksAhead.lexeme t.kind t.text.toList).initial p c d as bs hc hd

end SameStart

end Kotlinize
