import Kotlinize.Proofs.Lexemes

namespace Kotlinize

/-!
# Places in a source text

Every token of a source text has a place of its own, behind that of the token before it.  So a
place tells which token of the text it belongs to.

* `Position.Precedes` — one place comes before another: on an earlier line, or on the same line
  and further to the left.
* `Token.isPlaced` — the tokens that were read from a text; those that an edit makes have no place.
* `precedes_of_tokenize` — the places of a text's tokens go up.
-/

/-! ### The order of places -/

/-- One place comes before another in a text. -/
def Position.Precedes (p q : Position) : Prop :=
  p.line < q.line ∨ p.line = q.line ∧ p.column < q.column

namespace Position

variable {p q r : Position}

theorem Precedes.ne (h : p.Precedes q) : p ≠ q := by
  rintro rfl
  unfold Precedes at h
  omega

theorem Precedes.trans (h₁ : p.Precedes q) (h₂ : q.Precedes r) : p.Precedes r := by
  unfold Precedes at h₁ h₂ ⊢
  omega

/-- A character takes a line or at least one column. -/
theorem precedes_advance (p : Position) (c : Char) : p.Precedes (p.advance c) := by
  have hsize := c.utf8Size_pos
  unfold advance Precedes
  split
  · exact .inl (Nat.lt_succ_self _)
  · exact .inr ⟨rfl, Nat.lt_add_of_pos_right hsize⟩

theorem precedes_foldl_advance (p : Position) {cs : List Char} (h : cs ≠ []) :
    p.Precedes (cs.foldl advance p) := by
  induction cs generalizing p with
  | nil => exact absurd rfl h
  | cons c cs ih =>
    rw [List.foldl_cons]
    cases cs with
    | nil => exact p.precedes_advance c
    | cons d cs => exact (p.precedes_advance c).trans (ih _ (List.cons_ne_nil d cs))

/-- The text behind a lexeme goes on at a later place. -/
theorem precedes_after (p : Position) (kind : TokenKind) {text : List Char} (h : text ≠ []) :
    p.Precedes (p.after kind text) := by
  unfold after
  split
  · exact .inl (Nat.lt_succ_self _)
  · exact p.precedes_foldl_advance h

end Position

/-! ### The tokens of a text -/

/-- Whether a token has a place, because it was read from a text. -/
def Token.isPlaced (t : Token) : Bool := t.pos != .unplaced

theorem Token.isPlaced_iff {t : Token} : t.isPlaced = true ↔ t.pos ≠ .unplaced := by
  simp [isPlaced]

/-- The tokens of a text that starts at a place stand there and behind it, each behind the one
    before it. -/
theorem precedes_of_tokenizeAt {pos : Position} {cs : List Char} {ts : List Token}
    (h : tokenizeAt pos cs = .ok ts) :
    (∀ t ∈ ts, t.pos = pos ∨ pos.Precedes t.pos) ∧
      ts.Pairwise fun a b => a.pos.Precedes b.pos := by
  fun_induction tokenizeAt pos cs generalizing ts with
  | case1 =>
    cases h
    exact ⟨List.forall_mem_nil _, List.Pairwise.nil⟩
  | case2 => cases h
  | case3 pos c cs l hl ih =>
    obtain ⟨us, hus, rfl⟩ := map_eq_ok_iff.1 h
    obtain ⟨hplaces, hpairs⟩ := ih hus
    have hnext : pos.Precedes (pos.after l.kind (l.text c)) :=
      pos.precedes_after l.kind (List.cons_ne_nil _ _)
    have hbehind : ∀ u ∈ us, pos.Precedes u.pos := by
      intro u hu
      rcases hplaces u hu with hpos | hpos
      · rwa [hpos]
      · exact hnext.trans hpos
    refine ⟨?_, List.pairwise_cons.2 ⟨hbehind, hpairs⟩⟩
    intro t ht
    rcases List.mem_cons.1 ht with rfl | ht
    · exact .inl rfl
    · exact .inr (hbehind t ht)

/-- **The tokens of a source text stand at places that go up.** -/
theorem precedes_of_tokenize {source : String} {ts : List Token}
    (h : tokenize source = .ok ts) : ts.Pairwise fun a b => a.pos.Precedes b.pos :=
  (precedes_of_tokenizeAt h).2

theorem isPlaced_of_tokenize {source : String} {ts : List Token}
    (h : tokenize source = .ok ts) : ∀ t ∈ ts, t.isPlaced = true := by
  intro t ht
  rw [Token.isPlaced_iff]
  rintro hnone
  rcases (precedes_of_tokenizeAt h).1 t ht with hpos | hpos
  · rw [hnone] at hpos
    cases hpos
  · -- Lines are counted from one.
    rw [hnone, Position.Precedes, Position.start, Position.unplaced] at hpos
    simp at hpos

end Kotlinize
