import Kotlinize.Source.Tokenize
import Mathlib

namespace Kotlinize

/-!
# The lexemes of a text

Where a token stands has no part in how the text goes on.  Without the places, the cutting of a
text is a function of the characters alone.

* `lexemes` — the lexemes of a text, each with its kind and its characters.
* `lexemes_of_tokenizeAt` — the tokens of a text are its lexemes, wherever it starts.
* `tokenizeAt_cons_eq_ok` — the first token and those behind it.
-/

theorem eq_ok_of_toOption {ε α : Type} {x : Except ε α} {a : α} (h : x.toOption = some a) :
    x = .ok a := by
  cases x with
  | error e => cases h
  | ok a' =>
    cases h
    rfl

theorem map_eq_ok_iff {ε α β : Type} {f : α → β} {x : Except ε α} {b : β} :
    x.map f = .ok b ↔ ∃ a, x = .ok a ∧ b = f a := by
  cases x with
  | error e =>
    constructor
    · intro h
      cases h
    · rintro ⟨a, h, -⟩
      cases h
  | ok a =>
    constructor
    · intro h
      cases h
      exact ⟨a, rfl, rfl⟩
    · rintro ⟨a', h, rfl⟩
      cases h
      rfl

/-! ### Block comments -/

/-- A character that neither opens nor closes a comment is taken as it is. -/
theorem blockComment?_cons {depth : Nat} {c : Char} {cs : List Char}
    (hopen : ¬ (c = '/' ∧ cs.head? = some '*')) (hclose : ¬ (c = '*' ∧ cs.head? = some '/')) :
    blockComment? depth (c :: cs) = (blockComment? depth cs).map (Cut.cons c) := by
  rw [blockComment?]
  · rintro rest rfl rfl
    exact hopen ⟨rfl, rfl⟩
  · rintro rest rfl rfl
    exact hclose ⟨rfl, rfl⟩

/-! ### Tokens -/

/-- The tokens of a text: that of the first lexeme, and those of the text behind it. -/
theorem tokenizeAt_cons_eq_ok {pos : Position} {c : Char} {cs : List Char} {ts : List Token} :
    tokenizeAt pos (c :: cs) = .ok ts
      ↔ ∃ l us, Lexeme.next c cs = .ok l
          ∧ tokenizeAt (pos.after l.kind (l.text c)) l.rest = .ok us
          ∧ ts = l.token c pos :: us := by
  rw [tokenizeAt]
  constructor
  · intro h
    split at h
    · cases h
    · rename_i l hl
      obtain ⟨us, hus, rfl⟩ := map_eq_ok_iff.1 h
      exact ⟨l, us, hl, hus, rfl⟩
  · rintro ⟨l, us, hl, hus, rfl⟩
    split
    · rename_i hl'
      rw [hl] at hl'
      cases hl'
    · rename_i l' hl'
      rw [hl] at hl'
      cases hl'
      exact map_eq_ok_iff.2 ⟨us, hus, rfl⟩

theorem toList_token_text (c : Char) (pos : Position) (l : Lexeme) :
    (l.token c pos).text.toList = l.text c :=
  String.toList_ofList

theorem dropMark_eq_self {cs : List Char} (h : cs.head? ≠ some '\ufeff') : dropMark cs = cs := by
  cases cs with
  | nil => rfl
  | cons c cs => simp_all [dropMark]

theorem dropMark_suffix (cs : List Char) : dropMark cs <:+ cs := by
  cases cs with
  | nil => exact List.suffix_refl []
  | cons c cs =>
    rw [dropMark]
    split
    · exact List.suffix_cons c cs
    · exact List.suffix_refl _

/-! ### Lexemes without places -/

/-- The lexemes of a text, each with its kind and its characters. -/
def lexemes : List Char → Except Fault (List (TokenKind × List Char))
  | [] => .ok []
  | c :: cs =>
    match _h : Lexeme.next c cs with
    | .error fault => .error fault
    | .ok l => (lexemes l.rest).map ((l.kind, l.text c) :: ·)
termination_by cs => cs.length
decreasing_by
  simpa using Nat.lt_succ_of_le (Lexeme.length_rest_le_of_next _h)

/-- A token as a lexeme: its kind and the characters of its text. -/
def Token.lexeme (t : Token) : TokenKind × List Char := (t.kind, t.text.toList)

@[simp] theorem lexemes_nil : lexemes [] = .ok [] := by
  rw [lexemes]

theorem lexemes_cons_of_error {c : Char} {cs : List Char} {fault : Fault}
    (h : Lexeme.next c cs = .error fault) : lexemes (c :: cs) = .error fault := by
  rw [lexemes]
  split
  · rename_i fault' h'
    rw [h] at h'
    cases h'
    rfl
  · rename_i l h'
    rw [h] at h'
    cases h'

theorem lexemes_cons_of_ok {c : Char} {cs : List Char} {l : Lexeme}
    (h : Lexeme.next c cs = .ok l) :
    lexemes (c :: cs) = (lexemes l.rest).map ((l.kind, l.text c) :: ·) := by
  rw [lexemes]
  split
  · rename_i fault' h'
    rw [h] at h'
    cases h'
  · rename_i l' h'
    rw [h] at h'
    cases h'
    rfl

/-- No lexeme is empty. -/
theorem ne_nil_of_mem_lexemes {cs : List Char} {ls : List (TokenKind × List Char)}
    (h : lexemes cs = .ok ls) : ∀ l ∈ ls, l.2 ≠ [] := by
  fun_induction lexemes cs generalizing ls with
  | case1 =>
    cases h
    intro l hl
    cases hl
  | case2 => cases h
  | case3 c cs l hl ih =>
    obtain ⟨ls', hls', rfl⟩ := map_eq_ok_iff.1 h
    intro p hp
    rcases List.mem_cons.1 hp with rfl | hp
    · exact List.cons_ne_nil _ _
    · exact ih hls' p hp

/-- **The tokens of a text are its lexemes**, wherever the text starts. -/
theorem lexemes_eq_tokenizeAt (pos : Position) (cs : List Char) :
    lexemes cs = match tokenizeAt pos cs with
      | .error e => .error e.fault
      | .ok ts => .ok (ts.map Token.lexeme) := by
  fun_induction tokenizeAt pos cs with
  | case1 => exact lexemes_nil
  | case2 pos c cs fault hn => exact lexemes_cons_of_error hn
  | case3 pos c cs l hl ih =>
    rw [lexemes_cons_of_ok hl, ih]
    cases tokenizeAt (pos.after l.kind (l.text c)) l.rest with
    | error e => rfl
    | ok us =>
      show Except.ok _ = Except.ok _
      rw [List.map_cons, Token.lexeme, toList_token_text]
      rfl

theorem lexemes_of_tokenizeAt {pos : Position} {cs : List Char} {ts : List Token}
    (h : tokenizeAt pos cs = .ok ts) : lexemes cs = .ok (ts.map Token.lexeme) := by
  rw [lexemes_eq_tokenizeAt pos, h]

/-- A text with lexemes has tokens, wherever it starts. -/
theorem exists_tokenizeAt_of_lexemes (pos : Position) {cs : List Char}
    {ls : List (TokenKind × List Char)} (h : lexemes cs = .ok ls) :
    ∃ ts, tokenizeAt pos cs = .ok ts ∧ ts.map Token.lexeme = ls := by
  rw [lexemes_eq_tokenizeAt pos] at h
  cases ht : tokenizeAt pos cs with
  | error e =>
    rw [ht] at h
    cases h
  | ok ts =>
    rw [ht] at h
    cases h
    exact ⟨ts, rfl, rfl⟩

end Kotlinize
