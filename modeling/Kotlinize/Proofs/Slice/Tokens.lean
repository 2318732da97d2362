import Kotlinize.Proofs.Bytes.Lexemes
import Kotlinize.Proofs.Slice.CutShort

namespace Kotlinize

/-!
# Tokens out of their context

Neighbouring tokens of a text, printed and read as a text of their own, are the same tokens: how
a token is read depends neither on what stands before it nor on what stands behind it.

* `exists_tokenizeAt_key` — kinds and texts do not depend on the place where a text starts.
* `tokenizeAt_slice` — the tokens between any two boundaries, from a given place on.
* `tokenizeAt_singleton` — one token, and where it stands.
* `tokenize_slice` — the same for whole texts, in front of which a byte order mark is dropped.
-/

theorem Token.key_eq_comp_lexeme :
    Token.key = (fun l => (l.1, String.ofList l.2)) ∘ Token.lexeme := by
  funext t
  simp [Token.key, Token.lexeme, String.ofList_toList]

/-- The kinds and texts of the tokens do not depend on where the text starts. -/
theorem exists_tokenizeAt_key {pos : Position} {cs : List Char} {ts : List Token}
    (h : tokenizeAt pos cs = .ok ts) (pos' : Position) :
    ∃ us, tokenizeAt pos' cs = .ok us ∧ us.map Token.key = ts.map Token.key := by
  obtain ⟨us, hus, hmap⟩ := exists_tokenizeAt_of_lexemes pos' (lexemes_of_tokenizeAt h)
  refine ⟨us, hus, ?_⟩
  rw [Token.key_eq_comp_lexeme, ← List.map_map, ← List.map_map, hmap]

/-- The tokens between two boundaries are those of their own text from the place of the first. -/
theorem tokenizeAt_slice {pos : Position} {cs : List Char} {before slice after : List Token}
    (h : tokenizeAt pos cs = .ok (before ++ slice ++ after)) :
    tokenizeAt (pos.behind before) (spelling slice) = .ok slice := by
  rw [List.append_assoc] at h
  obtain ⟨-, hbehind⟩ := tokenizeAt_append h
  exact (tokenizeAt_append hbehind).1

/-- A token of a text stands behind the tokens in front of it, and its text is this one token. -/
theorem tokenizeAt_singleton {pos : Position} {cs : List Char} {before after : List Token}
    {t : Token} (h : tokenizeAt pos cs = .ok (before ++ t :: after)) :
    t.pos = pos.behind before ∧ tokenizeAt t.pos t.text.toList = .ok [t] := by
  rw [← List.singleton_append, ← List.append_assoc] at h
  have hone := tokenizeAt_slice h
  have htext : spelling [t] = t.text.toList := List.append_nil _
  rw [htext] at hone
  have hpos : t.pos = pos.behind before := by
    cases ht : t.text.toList with
    | nil => simp [ht, tokenizeAt] at hone
    | cons c ds =>
      rw [ht] at hone
      obtain ⟨l, us, -, -, hts⟩ := tokenizeAt_cons_eq_ok.1 hone
      exact congrArg Token.pos (List.cons.inj hts).1
  exact ⟨hpos, hpos ▸ hone⟩

/-- The text of some tokens starts as the first of them does, since none of them is empty. -/
theorem head?_spelling {ts : List Token} (h : ∀ t ∈ ts, t.text ≠ "") :
    (spelling ts).head? = ts.head?.bind fun t => t.text.toList.head? := by
  cases ts with
  | nil => rfl
  | cons t ts =>
    obtain ⟨c, cs, ht⟩ : ∃ c cs, t.text.toList = c :: cs := by
      rw [← List.ne_nil_iff_exists_cons]
      simpa using h t List.mem_cons_self
    simp [spelling_cons, ht]

/-- **Tokens are read out of their context as they are in it.**  Neighbouring tokens of a source
    text, the first of which does not start with a byte order mark, are the tokens of the text
    that they make up, by kind and text; at the start of the source, also by place. -/
theorem tokenize_slice {source : String} {before slice after : List Token}
    (h : tokenize source = .ok (before ++ slice ++ after))
    (hmark : ∀ t ∈ slice.head?, t.text.toList.head? ≠ some '\ufeff') :
    ∃ us, tokenize (render slice) = .ok us ∧ us.map Token.key = slice.map Token.key ∧
      (before = [] → us = slice) := by
  have hne : ∀ t ∈ slice, t.text ≠ "" := fun t ht => text_ne_empty_of_tokenize h t (by simp [ht])
  have hstart : dropMark (render slice).toList = spelling slice := by
    rw [toList_render, dropMark_eq_self]
    rw [head?_spelling hne, Ne, Option.bind_eq_some_iff]
    rintro ⟨t, ht, hc⟩
    exact hmark t ht hc
  have hslice := tokenizeAt_slice h
  obtain ⟨us, hus, hkey⟩ := exists_tokenizeAt_key hslice .start
  refine ⟨us, by rwa [tokenize, hstart], hkey, ?_⟩
  rintro rfl
  rw [Position.behind_nil, hus] at hslice
  exact Except.ok.inj hslice

/-- A number in front of a point that does not belong to it, and an operator in front of it. -/
theorem tokenize_slice_number_before_point :
    tokenize "a+1.b" = .ok
        [⟨.identifier, "a", ⟨1, 1⟩⟩, ⟨.symbol, "+", ⟨1, 2⟩⟩, ⟨.number, "1", ⟨1, 3⟩⟩,
          ⟨.symbol, ".", ⟨1, 4⟩⟩, ⟨.identifier, "b", ⟨1, 5⟩⟩] ∧
      ∃ us, tokenize "+1" = .ok us ∧ us.map Token.key = [(.symbol, "+"), (.number, "1")] := by
  have h : tokenize "a+1.b" = .ok
      ([⟨.identifier, "a", ⟨1, 1⟩⟩] ++ [⟨.symbol, "+", ⟨1, 2⟩⟩, ⟨.number, "1", ⟨1, 3⟩⟩]
        ++ [⟨.symbol, ".", ⟨1, 4⟩⟩, ⟨.identifier, "b", ⟨1, 5⟩⟩]) := by
    cbv
  obtain ⟨us, hus, hkey, -⟩ := tokenize_slice h (by decide)
  exact ⟨h, us, hus, hkey⟩

end Kotlinize
