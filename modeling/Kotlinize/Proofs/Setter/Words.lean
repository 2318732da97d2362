import Kotlinize.Proofs.Count
import Kotlinize.Proofs.Setter.Remaining

namespace Kotlinize

/-!
# The words in front of a setter

Access modifiers are the words that restrict a setter.  The pass over setters never reads which
word it moves: every keyword will do, so an expression `(set)` behind `return`, `in` or `if`, or
behind an attribute, goes to a line of its own as well.

* `accessModifiers` — the words that restrict a setter.
* `MarksSetter`, `Restricts` — a word stands in front of `(set)`, and more than spacing behind it.
* `Token.reword` — another word in the place of each keyword.
* `relocateSettersAfter_reword` — the pass does the same with any other words.
* `relocateSetters_reads_no_word` — hence it leaves a text alone only if no word at all stands in
  front of `(set)`.
-/

variable {config : Config} {word : String} {t : Token} {ts : List Token}

/-! ### Words in front of `(set)` -/

/-- The words that restrict who may write a property. -/
def accessModifiers : List String := ["private", "fileprivate", "internal", "public", "open"]

/-- Something holds of the text behind a word that stands as a keyword. -/
def BehindWord (word : String) (P : List Token → Prop) (ts : List Token) : Prop :=
  ∃ before keyword rest, ts = before ++ keyword :: rest ∧ keyword.is .keyword word = true ∧ P rest

/-- A word stands as a keyword in front of `(set)`, spacing apart. -/
def MarksSetter (word : String) : List Token → Prop :=
  BehindWord word fun rest => ∃ after, SetNext rest after

/-- A word stands as a keyword in front of `(set)`, and more than spacing behind that. -/
def Restricts (word : String) : List Token → Prop :=
  BehindWord word fun rest => ∃ after, SetNext rest after ∧ ∃ t ∈ after, t.isSpacing = false

/-- What is restricted is restricted by some word. -/
theorem holdsRestriction_iff_exists_restricts :
    HoldsRestriction ts ↔ ∃ word, Restricts word ts := by
  constructor
  · rintro ⟨before, keyword, rest, rfl, hk, hset⟩
    rw [Token.isKeyword, beq_iff_eq] at hk
    exact ⟨keyword.text, before, keyword, rest, rfl, Token.is_iff.2 ⟨hk, rfl⟩, hset⟩
  · rintro ⟨word, before, keyword, rest, rfl, hk, hset⟩
    exact ⟨before, keyword, rest, rfl, by simp [Token.isKeyword, (Token.is_iff.1 hk).1], hset⟩

/-! ### Other words -/

/-- Another word in the place of a keyword. -/
def Token.reword (f : String → String) (t : Token) : Token :=
  if t.isKeyword then { t with text := f t.text } else t

namespace Token

variable (f : String → String)

@[simp] theorem kind_reword (t : Token) : (t.reword f).kind = t.kind := by
  unfold reword
  split <;> rfl

theorem text_reword (h : t.isKeyword = false) : (t.reword f).text = t.text := by
  simp [reword, h]

@[simp] theorem isKeyword_reword (t : Token) : (t.reword f).isKeyword = t.isKeyword := by
  simp [isKeyword]

@[simp] theorem isSpacing_reword (t : Token) : (t.reword f).isSpacing = t.isSpacing := by
  simp [isSpacing]

@[simp] theorem isLinebreak_reword (t : Token) : (t.reword f).isLinebreak = t.isLinebreak := by
  simp [isLinebreak]

@[simp] theorem isWhitespace_reword (t : Token) :
    (t.reword f).isWhitespace = t.isWhitespace := by
  simp [isWhitespace]

theorem is_reword {kind : TokenKind} (hk : kind ≠ .keyword) (t : Token) (text : String) :
    (t.reword f).is kind text = t.is kind text := by
  by_cases h : t.kind = kind
  · have hkeyword : t.isKeyword = false := by simp [isKeyword, h, hk]
    simp [is, text_reword f hkeyword]
  · simp [is, beq_eq_false_iff_ne.2 h]

end Token

section

variable (f : String → String)

/-- What stands behind `(set)` does not depend on the words. -/
theorem restricted?_reword (ts : List Token) :
    restricted? (ts.map (Token.reword f)) = (restricted? ts).map (List.map (Token.reword f)) := by
  have hdrop : ∀ us : List Token, (us.map (Token.reword f)).dropWhile Token.isSpacing
      = (us.dropWhile Token.isSpacing).map (Token.reword f) := fun us => by
    simp [List.dropWhile_map, Function.comp_def]
  have hopens : ∀ u : Token, Bracket.round.opens (u.reword f) = Bracket.round.opens u := fun u =>
    u.is_reword f (by decide) _
  have hset : ∀ u : Token, (u.reword f).is .identifier "set" = u.is .identifier "set" := fun u =>
    u.is_reword f (by decide) _
  have hcloses : ∀ u : Token, Bracket.round.closes (u.reword f) = Bracket.round.closes u :=
    fun u => u.is_reword f (by decide) _
  unfold restricted?
  rw [hdrop]
  rcases ts.dropWhile Token.isSpacing with _ | ⟨opener, _ | ⟨word, _ | ⟨closer, rest⟩⟩⟩
  · rfl
  · rfl
  · rfl
  · simp only [List.map_cons, hopens, hset, hcloses]
    split
    · rw [hdrop]
      cases rest.dropWhile Token.isSpacing <;> rfl
    · rfl

/-- Nor does what a keyword restricts. -/
theorem restricted?_behind_reword (t : Token) (ts : List Token) :
    (if (t.reword f).isKeyword then restricted? (ts.map (Token.reword f)) else none)
      = (if t.isKeyword then restricted? ts else none).map (List.map (Token.reword f)) := by
  rw [t.isKeyword_reword, restricted?_reword]
  split <;> rfl

theorem indentText_reword (head? : Option Token) :
    indentText (head?.map (Token.reword f)) = indentText head? := by
  cases head? with
  | none => rfl
  | some t =>
    show (if (t.reword f).isWhitespace then _ else _) = if t.isWhitespace then _ else _
    rw [t.isWhitespace_reword]
    split
    · rename_i h
      rw [Token.isWhitespace, beq_iff_eq] at h
      exact t.text_reword f (by simp [Token.isKeyword, h])
    · rfl

theorem setterLine_reword (head? : Option Token) (modifier : Token) (after : List Token) :
    setterLine config (head?.map (Token.reword f)) (modifier.reword f)
        (after.map (Token.reword f))
      = (setterLine config head? modifier after).map (Token.reword f) := by
  unfold setterLine
  rw [indentText_reword]
  cases after <;> rfl

/-- **The pass does the same with any other words.** -/
theorem relocateSettersAfter_reword (config : Config) (head? : Option Token) (ts : List Token) :
    relocateSettersAfter config (head?.map (Token.reword f)) (ts.map (Token.reword f))
      = ⟨(relocateSettersAfter config head? ts).tokens.map (Token.reword f),
          (relocateSettersAfter config head? ts).count⟩ := by
  fun_induction relocateSettersAfter config head? ts with
  | case1 => simp [relocateSettersAfter, Edited.nil]
  | case2 head? t ts declaration hr line after ih =>
    have hr' : (if (t.reword f).isKeyword then restricted? (ts.map (Token.reword f)) else none)
        = some (declaration.map (Token.reword f)) :=
      (restricted?_behind_reword f t ts).trans (congrArg _ hr)
    have hline : (declaration.map (Token.reword f)).takeWhile (fun u => !u.isLinebreak)
        = line.map (Token.reword f) := by
      simp [List.takeWhile_map, Function.comp_def, line]
    have hafter : (declaration.map (Token.reword f)).dropWhile (fun u => !u.isLinebreak)
        = after.map (Token.reword f) := by
      simp [List.dropWhile_map, Function.comp_def, after]
    have hrest : relocateSettersAfter config none (after.map (Token.reword f)) = _ := ih
    rw [List.map_cons, relocateSettersAfter_of_eq_some hr', hline, hafter, hrest,
      setterLine_reword]
    simp [Edited.append, Edited.counted]
  | case3 head? t ts hr ih =>
    have hr' : (if (t.reword f).isKeyword then restricted? (ts.map (Token.reword f)) else none)
        = none :=
      (restricted?_behind_reword f t ts).trans (congrArg _ hr)
    have hhead : nextLineHead (head?.map (Token.reword f)) (t.reword f)
        = (nextLineHead head? t).map (Token.reword f) := by
      unfold nextLineHead
      rw [t.isLinebreak_reword]
      cases head? <;> split <;> rfl
    rw [List.map_cons, relocateSettersAfter_of_eq_none hr', hhead, ih]
    rfl

end

/-! ### The pass -/

/-- The pass moves nothing exactly if there is nothing behind a keyword that it looks for. -/
theorem count_relocateSettersAfter_eq_zero_iff (head? : Option Token) (ts : List Token) :
    (relocateSettersAfter config head? ts).count = 0 ↔ ¬ HoldsRestriction ts := by
  rw [holdsRestriction_iff_behindKeyword]
  fun_induction relocateSettersAfter config head? ts with
  | case1 => simp
  | case2 head? t ts declaration hr line after _ =>
    obtain ⟨hm, hd⟩ : t.isKeyword = true ∧ restricted? ts = some declaration :=
      Option.ite_none_right_eq_some.1 hr
    simp [hm, hd]
  | case3 head? t ts hr ih =>
    have hnot : ¬ (t.isKeyword = true ∧ (restricted? ts).isSome = true) := by
      rintro ⟨hm, hs⟩
      have hd : restricted? ts = none := by simpa [hm] using hr
      simp [hd] at hs
    rw [Edited.count_cons, ih, behindKeyword_cons, not_or]
    exact (and_iff_right hnot).symm

/-- **The pass over setters reads no word.**  On every list of tokens and with any configuration:
    it leaves the tokens as they are, and counts nothing, if and only if no keyword of any text
    stands in front of `(set)` with more than spacing behind it; and with other words in the
    place of all keywords it writes the same line at the same places. -/
theorem relocateSetters_reads_no_word (config : Config) (ts : List Token) :
    (relocateSetters config ts = ⟨ts, 0⟩ ↔ ∀ word, ¬ Restricts word ts) ∧
      ∀ f : String → String, relocateSetters config (ts.map (Token.reword f))
        = ⟨(relocateSetters config ts).tokens.map (Token.reword f),
            (relocateSetters config ts).count⟩ := by
  refine ⟨?_, fun f => relocateSettersAfter_reword f config none ts⟩
  rw [← not_exists, ← holdsRestriction_iff_exists_restricts]
  have hcount : (relocateSetters config ts).count = 0 ↔ ¬ HoldsRestriction ts :=
    count_relocateSettersAfter_eq_zero_iff none ts
  have hsame := Stage.count_apply_eq_zero_iff config .restrictedSetters ts
  rw [← hcount]
  constructor
  · exact congrArg Edited.count
  · intro hzero
    have htokens : (relocateSetters config ts).tokens = ts := hsame.1 hzero
    calc relocateSetters config ts
        = ⟨(relocateSetters config ts).tokens, (relocateSetters config ts).count⟩ := rfl
      _ = ⟨ts, 0⟩ := by rw [htokens, hzero]

/-- The tokens of an expression `(set)` behind a keyword that restricts nothing. -/
def returnedSet : List Token :=
  [⟨.keyword, "return", ⟨1, 1⟩⟩, ⟨.startOfScope, "(", ⟨1, 7⟩⟩, ⟨.identifier, "set", ⟨1, 8⟩⟩,
    ⟨.endOfScope, ")", ⟨1, 11⟩⟩, ⟨.symbol, "+", ⟨1, 12⟩⟩, ⟨.identifier, "a", ⟨1, 13⟩⟩]

/-- **An expression behind `return` is taken away**, and `return` with it. -/
theorem relocateSetters_moves_returned_set :
    ¬ ∀ (config : Config) (source : String) (ts : List Token), tokenize source = .ok ts →
      (∀ word ∈ accessModifiers, ¬ MarksSetter word ts) →
      relocateSetters config ts = ⟨ts, 0⟩ := by
  intro hall
  have htokenize : tokenize "return(set)+a" = .ok returnedSet := by
    cbv
  have hnone : ∀ word ∈ accessModifiers, ¬ MarksSetter word returnedSet := by
    rintro word hword ⟨before, keyword, rest, hts, hk, -⟩
    have htexts : ∀ t ∈ returnedSet, t.text ∉ accessModifiers := by
      decide
    refine htexts keyword (hts ▸ List.mem_append_right before List.mem_cons_self) ?_
    rwa [(Token.is_iff.1 hk).2]
  have hcount : (relocateSetters .default returnedSet).count = 1 := by
    cbv
  rw [hall .default _ _ htokenize hnone] at hcount
  cases hcount

end Kotlinize
