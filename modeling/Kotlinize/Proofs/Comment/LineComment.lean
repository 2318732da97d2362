import Kotlinize.Proofs.Lexemes
import Kotlinize.Proofs.Rewrite

namespace Kotlinize

/-!
# Code and line comments

A line comment lasts up to the end of its line.  What an edit puts behind it on the same line is
no code any more.

* `LineCommentsClose` — behind every line comment the line ends.
* `readComments` — the same as a reading from the left, in one of two states, which can be cut
  and joined like the text itself (`lineCommentsClose_iff_readComments`).
* `lineCommentsClose_of_tokenize` — the tokens of a source text have this property.
-/

variable {inside : Bool}

/-! ### Line comments -/

/-- Whether a token is a comment up to the end of its line. -/
def isLineComment (t : Token) : Bool :=
  t.kind == .comment && ['/', '/'].isPrefixOf t.text.toList

/-- Behind every line comment only whitespace stands before the end of the line or text. -/
def LineCommentsClose (ts : List Token) : Prop :=
  ∀ before comment after, ts = before ++ comment :: after → isLineComment comment = true →
    endsLine after = true

theorem isLineComment_of_isSpacing {t : Token} (h : t.isSpacing = true) :
    isLineComment t = false := by
  unfold Token.isSpacing at h
  rw [Bool.or_eq_true, beq_iff_eq, beq_iff_eq] at h
  unfold isLineComment
  rcases h with h | h <;> rw [h] <;> rfl

theorem lineCommentsClose_nil : LineCommentsClose [] := by
  intro before comment after h
  cases before <;> cases h

theorem lineCommentsClose_cons {t : Token} {ts : List Token} :
    LineCommentsClose (t :: ts)
      ↔ (isLineComment t = true → endsLine ts = true) ∧ LineCommentsClose ts := by
  constructor
  · intro h
    refine ⟨fun ht => h [] t ts rfl ht, ?_⟩
    intro before comment after hts
    exact h (t :: before) comment after (by rw [hts]; rfl)
  · rintro ⟨ht, hts⟩ before comment after h
    cases before with
    | nil =>
      cases h
      exact ht
    | cons u before =>
      cases h
      exact hts before comment after rfl

/-! ### Reading from the left -/

/-- Whether the reading is inside a line comment behind a token; `none` if the token is neither
    spacing nor out of a comment. -/
def commentStep (inside : Bool) (t : Token) : Option Bool :=
  if t.isLinebreak then some false
  else if t.isWhitespace then some inside
  else if inside then none
  else some (isLineComment t)

/-- Reads through a text that starts inside a line comment or out of one, and says where it
    ends; `none` if anything but whitespace follows a comment on its line. -/
def readComments (inside : Bool) : List Token → Option Bool
  | [] => some inside
  | t :: ts => (commentStep inside t).bind fun inside' => readComments inside' ts

@[simp] theorem readComments_nil : readComments inside [] = some inside := rfl

theorem readComments_cons (t : Token) (ts : List Token) :
    readComments inside (t :: ts)
      = (commentStep inside t).bind fun inside' => readComments inside' ts := rfl

theorem isSome_readComments_cons_iff {t : Token} {ts : List Token} :
    (readComments inside (t :: ts)).isSome = true
      ↔ ∃ i, commentStep inside t = some i ∧ (readComments i ts).isSome = true := by
  rw [readComments_cons]
  cases commentStep inside t <;> simp

theorem readComments_append (as bs : List Token) :
    readComments inside (as ++ bs)
      = (readComments inside as).bind fun inside' => readComments inside' bs := by
  induction as generalizing inside with
  | nil => rfl
  | cons t as ih =>
    rw [List.cons_append, readComments_cons, readComments_cons, Option.bind_assoc]
    congr
    funext inside'
    exact ih

/-- A text can be read in two parts, the second one from where the first one ends. -/
theorem readComments_append_eq_some_iff {as bs : List Token} {out : Bool} :
    readComments inside (as ++ bs) = some out
      ↔ ∃ i, readComments inside as = some i ∧ readComments i bs = some out := by
  rw [readComments_append, Option.bind_eq_some_iff]

theorem isSome_readComments_append_iff {as bs : List Token} :
    (readComments inside (as ++ bs)).isSome = true
      ↔ ∃ i, readComments inside as = some i ∧ (readComments i bs).isSome = true := by
  rw [readComments_append]
  cases readComments inside as <;> simp

theorem commentStep_of_isWhitespace {t : Token} (h : t.isWhitespace = true) :
    commentStep inside t = some inside := by
  have hl : t.isLinebreak = false := by
    rw [Token.isWhitespace, beq_iff_eq] at h
    rw [Token.isLinebreak, h]
    rfl
  unfold commentStep
  rw [hl, h]
  rfl

theorem commentStep_of_isLinebreak {t : Token} (h : t.isLinebreak = true) :
    commentStep inside t = some false := by
  unfold commentStep
  rw [h]
  rfl

/-- Spacing out of a comment stays out of it. -/
theorem commentStep_of_isSpacing {t : Token} (h : t.isSpacing = true) :
    commentStep false t = some false := by
  rw [Token.isSpacing, Bool.or_eq_true] at h
  rcases h with h | h
  · exact commentStep_of_isWhitespace h
  · exact commentStep_of_isLinebreak h

/-- Nothing else can be read inside a comment. -/
theorem commentStep_of_not_isSpacing {t : Token} (h : t.isSpacing = false) :
    commentStep inside t = if inside then none else some (isLineComment t) := by
  rw [Token.isSpacing, Bool.or_eq_false_iff] at h
  unfold commentStep Token.isLinebreak Token.isWhitespace
  rw [h.1, h.2]
  rfl

/-- Code cannot be read inside a comment, and starts none. -/
theorem readComments_code {t : Token} (h : t.isTrivia = false) (ts : List Token) :
    readComments inside (t :: ts) = if inside then none else readComments false ts := by
  rw [Token.isTrivia, Bool.or_eq_false_iff] at h
  have hc : isLineComment t = false := by
    unfold isLineComment
    rw [h.2]
    rfl
  rw [readComments_cons, commentStep_of_not_isSpacing h.1, hc]
  cases inside <;> rfl

/-- A text that can be read from inside a comment ends the comment's line first. -/
theorem isSome_readComments_true_iff {ts : List Token} :
    (readComments true ts).isSome = true
      ↔ endsLine ts = true ∧ (readComments false ts).isSome = true := by
  induction ts with
  | nil => exact ⟨fun _ => ⟨rfl, rfl⟩, fun _ => rfl⟩
  | cons t ts ih =>
    by_cases hw : t.isWhitespace = true
    · have he : endsLine (t :: ts) = endsLine ts := by
        unfold endsLine
        rw [List.dropWhile_cons_of_pos hw]
      rw [he, readComments_cons, readComments_cons, commentStep_of_isWhitespace hw,
        commentStep_of_isWhitespace hw]
      exact ih
    · -- Anything else decides whether the line ends.
      have he : endsLine (t :: ts) = t.isLinebreak := by
        unfold endsLine
        rw [List.dropWhile_cons_of_neg hw]
        rfl
      rw [he, readComments_cons, readComments_cons]
      by_cases hl : t.isLinebreak = true
      · rw [commentStep_of_isLinebreak hl, commentStep_of_isLinebreak hl]
        exact ⟨fun h => ⟨hl, h⟩, fun h => h.2⟩
      · have hs : commentStep true t = none := by
          unfold commentStep
          rw [if_neg hl, if_neg hw]
          rfl
        rw [hs]
        exact ⟨fun h => (by cases h), fun h => absurd h.1 hl⟩

/-- The reading succeeds exactly if behind every line comment the line ends. -/
theorem lineCommentsClose_iff_readComments {ts : List Token} :
    LineCommentsClose ts ↔ (readComments false ts).isSome = true := by
  induction ts with
  | nil => exact ⟨fun _ => rfl, fun _ => lineCommentsClose_nil⟩
  | cons t ts ih =>
    rw [lineCommentsClose_cons, ih, readComments_cons]
    by_cases hs : t.isSpacing = true
    · rw [commentStep_of_isSpacing hs, isLineComment_of_isSpacing hs]
      exact ⟨fun h => h.2, fun h => ⟨fun hf => (by cases hf), h⟩⟩
    · rw [commentStep_of_not_isSpacing (Bool.not_eq_true _ ▸ hs), if_neg Bool.false_ne_true]
      by_cases hc : isLineComment t = true
      · -- Behind a line comment the reading goes on inside it.
        rw [hc]
        show _ ↔ (readComments true ts).isSome = true
        rw [isSome_readComments_true_iff]
        exact ⟨fun h => ⟨h.1 rfl, h.2⟩, fun h => ⟨fun _ => h.1, h.2⟩⟩
      · rw [Bool.not_eq_true] at hc
        rw [hc]
        exact ⟨fun h => h.2, fun h => ⟨fun hf => (by cases hf), h⟩⟩

/-! ### The tokens of a source text -/

/-- A lexeme whose text starts with two slashes is a comment up to the end of the line. -/
theorem Lexeme.next_of_slashes {c : Char} {cs : List Char} {l : Lexeme}
    (h : Lexeme.next c cs = .ok l) (hs : ['/', '/'].isPrefixOf (l.text c) = true) :
    l = ⟨.comment, lineComment cs⟩ := by
  obtain ⟨more, ht⟩ := List.isPrefixOf_iff_prefix.1 hs
  have hw := text_append_rest_of_next h
  rw [← ht] at hw
  injection hw with hc hcs
  subst hc
  have hn : Lexeme.next '/' cs = .ok ⟨.comment, lineComment cs⟩ := by
    rw [← hcs]
    rfl
  rw [hn] at h
  cases h
  rfl

/-- Where a line ends or the text ends, the tokens do so too. -/
theorem endsLine_of_tokenizeAt {pos : Position} {cs : List Char} {ts : List Token}
    (h : tokenizeAt pos cs = .ok ts) (hcs : cs.head?.all isLineEnd = true) :
    endsLine ts = true := by
  cases cs with
  | nil =>
    rw [tokenizeAt] at h
    cases h
    rfl
  | cons c cs =>
    have hc : isLineEnd c = true := hcs
    have hn : Lexeme.next c cs = .ok ⟨.linebreak, Lexeme.lineEndTail c cs⟩ := by
      unfold Lexeme.next Lexeme.layout?
      rw [if_pos hc]
    obtain ⟨l, us, hl, -, rfl⟩ := tokenizeAt_cons_eq_ok.1 h
    rw [hn] at hl
    cases hl
    rfl

theorem lineCommentsClose_of_tokenizeAt {pos : Position} {cs : List Char} {ts : List Token}
    (h : tokenizeAt pos cs = .ok ts) : LineCommentsClose ts := by
  fun_induction tokenizeAt pos cs generalizing ts with
  | case1 =>
    cases h
    exact lineCommentsClose_nil
  | case2 => cases h
  | case3 pos c cs l hl ih =>
    obtain ⟨us, hus, rfl⟩ := map_eq_ok_iff.1 h
    rw [lineCommentsClose_cons]
    refine ⟨fun hc => ?_, ih hus⟩
    rw [isLineComment, Bool.and_eq_true] at hc
    rw [toList_token_text] at hc
    have heq := Lexeme.next_of_slashes hl hc.2
    apply endsLine_of_tokenizeAt hus
    -- The comment takes all but the line end.
    rw [heq]
    have hhead := List.head?_dropWhile_not (fun c => !isLineEnd c) cs
    show ((cs.dropWhile fun c => !isLineEnd c).head?.all isLineEnd) = true
    cases hd : (cs.dropWhile fun c => !isLineEnd c).head? with
    | none => rfl
    | some d =>
      rw [hd] at hhead
      simpa using hhead

/-- In a source text a line ends behind each of its line comments. -/
theorem lineCommentsClose_of_tokenize {source : String} {ts : List Token}
    (h : tokenize source = .ok ts) : LineCommentsClose ts :=
  lineCommentsClose_of_tokenizeAt h

end Kotlinize
