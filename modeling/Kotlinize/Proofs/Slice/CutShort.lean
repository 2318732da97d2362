import Kotlinize.Proofs.Reread.Words

namespace Kotlinize

/-!
# Texts that are cut short

Many lexemes end where a look at the text behind them says so.  If a part of that text is cut off
at its end, they end in the same place: what stands behind a lexeme can only go on with it, and
does so no sooner the less there is of it.

* `Lexeme.next_cutShort` — the first lexeme of a text is that of the text cut short behind it.
* `Position.behind` — the place behind some tokens.
* `tokenizeAt_append` — a text falls into the same tokens when it is cut between two of them.
* `tokenizeAt_eq_error` — a text that fails to fall into tokens does so behind a text that falls
  into tokens, at a lexeme that cannot be read.
-/

/-! ### Lexemes that end where something else starts -/

/-- Of a run of characters nothing more is taken from a text cut short. -/
theorem Cut.takeWhile_cutShort {p : Char → Bool} {cs as bs : List Char}
    (h : (Cut.takeWhile p cs).rest = as ++ bs) :
    Cut.takeWhile p ((Cut.takeWhile p cs).text ++ as) = ⟨(Cut.takeWhile p cs).text, as⟩ := by
  have hagain := Cut.takeWhile_again p cs as
  cases as with
  | nil => simpa using hagain
  | cons a as =>
    have ha : p a = false := by
      have hhead := List.head?_dropWhile_not p cs
      rw [show cs.dropWhile p = a :: (as ++ bs) from h] at hhead
      simpa using hhead
    simpa [ha] using hagain

/-- A line feed that is cut off does not belong to a carriage return that stands alone. -/
theorem Lexeme.lineEndTail_cutShort {c : Char} {cs as bs : List Char}
    (h : (lineEndTail c cs).rest = as ++ bs) :
    lineEndTail c ((lineEndTail c cs).text ++ as) = ⟨(lineEndTail c cs).text, as⟩ := by
  by_cases hc : c = '\r' ∧ cs.head? = some '\n'
  · obtain ⟨rfl, hcs⟩ := hc
    obtain ⟨more, rfl⟩ := List.head?_eq_some_iff.1 hcs
    rfl
  · have htake : ∀ ds : List Char, ¬ (c = '\r' ∧ ds.head? = some '\n') →
        lineEndTail c ds = ⟨[], ds⟩ := by
      intro ds hds
      rw [lineEndTail, if_neg hds]
      rfl
    rw [htake cs hc] at h ⊢
    refine htake as ?_
    rintro ⟨rfl, ha⟩
    obtain ⟨more, rfl⟩ := List.head?_eq_some_iff.1 ha
    exact hc ⟨rfl, by simp [show cs = '\n' :: (more ++ bs) from h]⟩

theorem Lexeme.next_cutShort_of_isOpenEnded {c : Char} {cs as bs : List Char} {l : Lexeme}
    (h : next c cs = .ok l) (hend : isOpenEnded l.kind (l.text c) = true)
    (hr : l.rest = as ++ bs) :
    next c (l.more.text ++ as) = .ok ⟨l.kind, ⟨l.more.text, as⟩⟩ := by
  rw [isOpenEnded, Bool.or_eq_true] at hend
  rcases hend with hspacing | hslashes
  · have hc : (isBlank c || isLineEnd c) = true := by
      rw [← isSpacingKind_of_next h]
      exact hspacing
    rw [Bool.or_eq_true] at hc
    rcases hc with hblank | hline
    · obtain rfl := Except.ok.inj ((Reading.blank hblank).eq_ok h)
      rw [(Reading.blank hblank).next_eq, Cut.takeWhile_cutShort hr]
    · obtain rfl := Except.ok.inj ((Reading.lineEnd hline).eq_ok h)
      rw [(Reading.lineEnd hline).next_eq, lineEndTail_cutShort hr]
  · obtain ⟨more, htext⟩ := List.isPrefixOf_iff_prefix.1 hslashes
    obtain ⟨rfl, hmore⟩ : '/' = c ∧ '/' :: more = l.more.text := List.cons.inj htext
    have hcomment : (l.more.text ++ as).head? = some '/' := by simp [← hmore]
    rw [(Reading.lineComment rfl hcomment).next_eq]
    obtain rfl := next_of_slashes h hslashes
    exact congrArg (fun k => Except.ok (Lexeme.mk .comment k)) (Cut.takeWhile_cutShort hr)

/-! ### The first lexeme -/

/-- **The first lexeme of a text does not depend on how far the text goes on behind it.** -/
theorem Lexeme.next_cutShort {c : Char} {cs as bs : List Char} {l : Lexeme}
    (h : next c cs = .ok l) (hr : l.rest = as ++ bs) :
    next c (l.more.text ++ as) = .ok ⟨l.kind, ⟨l.more.text, as⟩⟩ := by
  by_cases hend : isOpenEnded l.kind (l.text c) = true
  · exact next_cutShort_of_isOpenEnded h hend hr
  · have hgo : goesOn l.kind (l.text c) as = false := by
      rw [Bool.eq_false_iff]
      intro has
      -- What goes on with a lexeme does so with more behind it.
      have hmore := (LooksAhead.lexeme l.kind (l.text c)).grow as bs has
      rw [← hr, goesOn_rest h] at hmore
      simp at hmore
    exact next_again h (Bool.eq_false_iff.2 hend) hgo

/-! ### Tokens -/

/-- The place behind some tokens that start at a place. -/
def Position.behind (pos : Position) (ts : List Token) : Position :=
  ts.foldl (fun p t => p.after t.kind t.text.toList) pos

@[simp] theorem Position.behind_nil (pos : Position) : pos.behind [] = pos := rfl

@[simp] theorem Position.behind_cons (pos : Position) (t : Token) (ts : List Token) :
    pos.behind (t :: ts) = (pos.after t.kind t.text.toList).behind ts := rfl

theorem tokenizeAt_nil (pos : Position) : tokenizeAt pos [] = .ok [] := by
  rw [tokenizeAt]

/-- A text whose first lexeme stands in front of the text of some tokens. -/
theorem tokenizeAt_cons_of_spelling {pos : Position} {c : Char} {cs : List Char} {l : Lexeme}
    {ts : List Token} {bs : List Char} (h : Lexeme.next c cs = .ok l)
    (hr : l.rest = spelling ts ++ bs)
    (hts : tokenizeAt (pos.after l.kind (l.text c)) (spelling ts) = .ok ts) :
    tokenizeAt pos (spelling (l.token c pos :: ts)) = .ok (l.token c pos :: ts) := by
  rw [spelling_cons, toList_token_text, Lexeme.text, List.cons_append]
  exact tokenizeAt_cons_eq_ok.2 ⟨_, ts, Lexeme.next_cutShort h hr, hts, rfl⟩

/-- **A text may be cut between two of its tokens.**  Each of the two texts falls into its own
    tokens, the second one from the place where it stands. -/
theorem tokenizeAt_append {pos : Position} {cs : List Char} {as bs : List Token}
    (h : tokenizeAt pos cs = .ok (as ++ bs)) :
    tokenizeAt pos (spelling as) = .ok as ∧
      tokenizeAt (pos.behind as) (spelling bs) = .ok bs := by
  induction as generalizing pos cs with
  | nil =>
    rw [List.nil_append] at h
    refine ⟨tokenizeAt_nil pos, ?_⟩
    rwa [spelling_of_tokenizeAt h]
  | cons t as ih =>
    cases cs with
    | nil => simp [tokenizeAt] at h
    | cons c cs =>
      rw [List.cons_append, tokenizeAt_cons_eq_ok] at h
      obtain ⟨l, us, hl, hus, hts⟩ := h
      obtain ⟨rfl, rfl⟩ := List.cons.inj hts
      obtain ⟨hfront, hback⟩ := ih hus
      have hrest : l.rest = spelling as ++ spelling bs := by
        rw [← spelling_append, spelling_of_tokenizeAt hus]
      refine ⟨tokenizeAt_cons_of_spelling hl hrest hfront, ?_⟩
      rwa [Position.behind_cons, toList_token_text]

/-- **A text fails at one lexeme.**  In front of it the text falls into tokens by itself, and the
    place of the failure is the place behind them. -/
theorem tokenizeAt_eq_error {pos : Position} {cs : List Char} {e : LexError}
    (h : tokenizeAt pos cs = .error e) :
    ∃ ts c rest, cs = spelling ts ++ c :: rest ∧ tokenizeAt pos (spelling ts) = .ok ts ∧
      Lexeme.next c rest = .error e.fault ∧ e.pos = pos.behind ts := by
  fun_induction tokenizeAt pos cs generalizing e with
  | case1 => simp at h
  | case2 pos c cs fault hfault =>
    obtain rfl := Except.error.inj h
    exact ⟨[], c, cs, rfl, tokenizeAt_nil pos, hfault, rfl⟩
  | case3 pos c cs l hl ih =>
    cases hrest : tokenizeAt (pos.after l.kind (l.text c)) l.rest with
    | ok us => simp [hrest, Except.map] at h
    | error e' =>
      obtain rfl : e' = e := by simpa [hrest, Except.map] using h
      obtain ⟨ts, d, rest, hsplit, hts, hfault, hpos⟩ := ih hrest
      refine ⟨l.token c pos :: ts, d, rest, ?_, tokenizeAt_cons_of_spelling hl hsplit hts, hfault,
        ?_⟩
      · rw [spelling_cons, toList_token_text, List.append_assoc, ← hsplit,
          Lexeme.text_append_rest_of_next hl]
      · rwa [Position.behind_cons, toList_token_text]

end Kotlinize
