import Kotlinize.Proofs.Reread.Words

namespace Kotlinize

/-!
# Reading a token list back

The text of a token list is read back as these tokens if and only if none of them runs on into
what follows it.  Spacing has no part in that: two blanks side by side are read as one.

* `ReadsBack` — the text of a token list has the tokens of the list, spacing apart.
* `readsBack_iff_apart` — when a list of readable tokens reads back.
* `readable_apart_of_tokenize` — the tokens of a source text are readable and stay apart.
-/

/-! ### Reading back -/

/-- What counts when a token is read back: whether it carries syntax, and its text. -/
def Token.gist (t : Token) : Bool × String := (!t.isTrivia, t.text)

/-- What counts when a token list is read back: its tokens without the spacing. -/
def gists (ts : List Token) : List (Bool × String) :=
  (ts.filter fun t => !t.isSpacing).map Token.gist

/-- The text of a token list has the tokens of the list, spacing apart. -/
def ReadsBack (ts : List Token) : Prop :=
  ∃ us, tokenize (render ts) = .ok us ∧ gists us = gists ts

/-- The texts of the tokens that carry syntax. -/
def codeTexts (ts : List Token) : List String := (ts.filter fun t => !t.isTrivia).map Token.text

theorem codeTexts_eq (ts : List Token) :
    codeTexts ts = ((gists ts).filter Prod.fst).map Prod.snd := by
  have hcode : ∀ t : Token, (!t.isTrivia) = (!t.isTrivia && !t.isSpacing) := by
    intro t
    rw [Token.isTrivia, Bool.not_or]
    cases t.isSpacing <;> simp
  rw [gists, List.filter_map, List.map_map, List.filter_filter, codeTexts]
  congr 1
  exact List.filter_congr fun t _ => hcode t

theorem codeTexts_of_gists {us ts : List Token} (h : gists us = gists ts) :
    codeTexts us = codeTexts ts := by
  rw [codeTexts_eq, codeTexts_eq, h]

theorem gists_cons_of_isSpacing {t : Token} (h : t.isSpacing = true) (ts : List Token) :
    gists (t :: ts) = gists ts := by
  rw [gists, List.filter_cons, h]
  rfl

theorem gists_cons_of_not_isSpacing {t : Token} (h : t.isSpacing = false) (ts : List Token) :
    gists (t :: ts) = t.gist :: gists ts := by
  rw [gists, List.filter_cons, h]
  rfl

/-- What counts of a lexeme. -/
def lexemeGist (l : TokenKind × List Char) : Bool × String :=
  (l.1 != .comment, String.ofList l.2)

/-- What counts of a token is what counts of the lexeme that its text is. -/
theorem lexemeGist_eq {t : Token} (h : t.isSpacing = false) {kind : TokenKind}
    (hk : fitsKind kind t.kind = true) : lexemeGist (kind, t.text.toList) = t.gist := by
  have hcomment : (kind != .comment) = (t.kind != .comment) := by
    rw [fitsKind, Bool.or_eq_true, Bool.and_eq_true, beq_iff_eq, beq_iff_eq, beq_iff_eq] at hk
    rcases hk with rfl | ⟨rfl, hk⟩
    · rfl
    · rw [hk]
      rfl
  rw [lexemeGist, String.ofList_toList, hcomment, Token.gist, Token.isTrivia, h]
  rfl

theorem words_of_tokenizeAt {pos : Position} {cs : List Char} {us : List Token}
    (h : tokenizeAt pos cs = .ok us) :
    ∃ ws, words cs = .ok ws ∧ ws.map lexemeGist = gists us := by
  refine ⟨(us.map Token.lexeme).filter fun l => !isSpacingKind l.1, ?_, ?_⟩
  · rw [words, lexemes_of_tokenizeAt h]
    rfl
  · rw [List.filter_map, List.map_map, gists]
    apply List.map_congr_left
    intro t ht
    have hs : t.isSpacing = false := by
      have hkept := (List.mem_filter.1 ht).2
      rwa [Function.comp_apply, Bool.not_eq_true'] at hkept
    exact lexemeGist_eq hs (by simp [fitsKind])

theorem words_spelling_of_apart {ts : List Token} (hts : ∀ t ∈ ts, t.isReadable = true)
    (h : apart [] ts = true) :
    ∃ ws, words (spelling ts) = .ok ws ∧ ws.map lexemeGist = gists ts := by
  induction ts with
  | nil => exact ⟨[], by rw [spelling, words, List.flatMap_nil, lexemes_nil]; rfl, rfl⟩
  | cons t ts ih =>
    have ht := hts t List.mem_cons_self
    rw [apart_cons_iff, List.append_nil] at h
    obtain ⟨ws, hws, hgists⟩ := ih (fun u hu => hts u (List.mem_cons_of_mem t hu)) h.2
    rw [spelling_cons]
    by_cases hs : t.isSpacing = true
    · refine ⟨ws, ?_, ?_⟩
      · rw [words_spacing_append (Token.spacing_of_isReadable ht hs)]
        exact hws
      · rw [gists_cons_of_isSpacing hs]
        exact hgists
    · -- The token is read as one word, and the others as by hypothesis.
      rw [Bool.not_eq_true] at hs
      obtain ⟨kind, hkind, hword⟩ := words_of_isReadable ht hs h.1
      refine ⟨(kind, t.text.toList) :: ws, ?_, ?_⟩
      · rw [hword, hws]
        rfl
      · rw [List.map_cons, lexemeGist_eq hs hkind, hgists, gists_cons_of_not_isSpacing hs]

theorem apart_of_words_spelling {ts : List Token} (hts : ∀ t ∈ ts, t.isReadable = true)
    {ws : List (TokenKind × List Char)} (h : words (spelling ts) = .ok ws)
    (hw : ws.map lexemeGist = gists ts) : apart [] ts = true := by
  induction ts generalizing ws with
  | nil => rfl
  | cons t ts ih =>
    have ht := hts t List.mem_cons_self
    have hts' : ∀ u ∈ ts, u.isReadable = true := fun u hu => hts u (List.mem_cons_of_mem t hu)
    rw [apart_cons_iff, List.append_nil]
    rw [spelling_cons] at h
    by_cases hs : t.isSpacing = true
    · rw [words_spacing_append (Token.spacing_of_isReadable ht hs)] at h
      rw [gists_cons_of_isSpacing hs] at hw
      exact ⟨runsOn_of_isSpacing hs _, ih hts' h hw⟩
    · rw [Bool.not_eq_true] at hs
      rw [gists_cons_of_not_isSpacing hs] at hw
      cases ws with
      | nil => cases hw
      | cons w ws =>
        obtain ⟨hw₁, hw₂⟩ := List.cons.inj hw
        -- The first word has the text of the first token, so nothing was added to it.
        have htext : w.2 = t.text.toList := by
          have heq : String.ofList w.2 = t.text := congrArg Prod.snd hw₁
          rw [← heq, String.toList_ofList]
        have hword := runsOn_eq_false_of_words ht hs h (by rw [← htext]; rfl)
        exact ⟨hword.1, ih hts' hword.2 hw₂⟩

theorem dropMark_spelling {ts : List Token} (hts : ∀ t ∈ ts, t.isReadable = true) :
    dropMark (spelling ts) = spelling ts := by
  apply dropMark_eq_self
  intro hhead
  obtain ⟨t, ht, hct⟩ := List.mem_flatMap.1 (List.mem_of_head? hhead)
  exact Token.not_mem_mark_of_isReadable (hts t ht) hct

/-- **A list of readable tokens reads back** if and only if none of them runs on. -/
theorem readsBack_iff_apart {ts : List Token} (hts : ∀ t ∈ ts, t.isReadable = true) :
    ReadsBack ts ↔ apart [] ts = true := by
  unfold ReadsBack tokenize
  rw [toList_render, dropMark_spelling hts]
  constructor
  · rintro ⟨us, hus, hg⟩
    obtain ⟨ws, hws, hw⟩ := words_of_tokenizeAt hus
    exact apart_of_words_spelling hts hws (hw.trans hg)
  · intro h
    obtain ⟨ws, hws, hw⟩ := words_spelling_of_apart hts h
    obtain ⟨ls, hls, rfl⟩ := map_eq_ok_iff.1 hws
    obtain ⟨us, hus, -⟩ := exists_tokenizeAt_of_lexemes .start hls
    obtain ⟨ws', hws', hw'⟩ := words_of_tokenizeAt hus
    rw [hws] at hws'
    cases hws'
    exact ⟨us, hus, hw'.symm.trans hw⟩

/-! ### The tokens of a source text -/

/-- A lexeme that is spacing has nothing but blanks and line ends. -/
theorem spacing_of_next {c : Char} {cs : List Char} {l : Lexeme} (h : Lexeme.next c cs = .ok l)
    (hs : isSpacingKind l.kind = true) : ∀ d ∈ l.text c, (isBlank d || isLineEnd d) = true := by
  have hc := hs
  rw [isSpacingKind_of_next h] at hc
  intro d hd
  rcases List.mem_cons.1 hd with rfl | hd
  · exact hc
  rw [Bool.or_eq_true] at hc
  rcases hc with hc | hc
  · rw [(Reading.blank hc).next_eq] at h
    cases h
    have hblank : isBlank d = true := List.all_eq_true.1 List.all_takeWhile d hd
    rw [hblank]
    rfl
  · rw [(Reading.lineEnd hc).next_eq] at h
    cases h
    replace hd : d ∈ (Lexeme.lineEndTail c cs).text := hd
    unfold Lexeme.lineEndTail at hd
    by_cases hlf : c = '\r' ∧ cs.head? = some '\n'
    · rw [if_pos hlf] at hd
      obtain ⟨more, rfl⟩ := List.head?_eq_some_iff.1 hlf.2
      obtain rfl : d = '\n' := List.mem_singleton.1 hd
      rfl
    · rw [if_neg hlf] at hd
      cases hd

theorem Token.isReadable_of_next {c : Char} {cs : List Char} {l : Lexeme} {pos : Position}
    (h : Lexeme.next c cs = .ok l) (hm : '\ufeff' ∉ l.text c)
    (hc : isLineComment (l.token c pos) = false) : (l.token c pos).isReadable = true := by
  have htext := toList_token_text c pos l
  have hkind : (l.token c pos).kind = l.kind := rfl
  have hmark : (l.text c).contains '\ufeff' = false := by simpa using hm
  unfold isReadable
  rw [htext, hmark]
  show (if isSpacingKind l.kind then (l.text c).all _ else _) = true
  by_cases hs : isSpacingKind l.kind = true
  · rw [if_pos hs]
    exact List.all_eq_true.2 (spacing_of_next h hs)
  · rw [if_neg hs]
    have hslashes : ['/', '/'].isPrefixOf (l.text c) = false := by
      rw [Bool.eq_false_iff]
      intro hp
      rw [isLineComment, htext, hp, hkind, Lexeme.next_of_slashes h hp] at hc
      cases hc
    have hend : isOpenEnded l.kind (l.text c) = false := by
      rw [Bool.not_eq_true] at hs
      rw [isOpenEnded, hslashes, Bool.or_false]
      exact hs
    -- The end of the text does not go on with the lexeme.
    have hagain := Lexeme.next_again h hend (LooksAhead.lexeme l.kind (l.text c)).nil
    rw [List.append_nil] at hagain
    rw [hagain, hkind]
    replace hend : isOpenEnded l.kind (c :: l.more.text) = false := hend
    simp [hend, fitsKind, Lexeme.text]

/-- The tokens of a text without byte order marks and line comments are readable, and none of
    them runs on. -/
theorem readable_apart_of_tokenizeAt {pos : Position} {cs : List Char} {ts : List Token}
    (h : tokenizeAt pos cs = .ok ts) (hm : '\ufeff' ∉ cs)
    (hc : ∀ t ∈ ts, isLineComment t = false) :
    (∀ t ∈ ts, t.isReadable = true) ∧ apart [] ts = true := by
  fun_induction tokenizeAt pos cs generalizing ts with
  | case1 =>
    cases h
    exact ⟨List.forall_mem_nil _, rfl⟩
  | case2 => cases h
  | case3 pos c cs l hl ih =>
    obtain ⟨us, hus, rfl⟩ := map_eq_ok_iff.1 h
    have hwhole := Lexeme.text_append_rest_of_next hl
    rw [← hwhole, List.mem_append, not_or] at hm
    obtain ⟨hreadable, hapart⟩ := ih hus hm.2 fun t ht => hc t (List.mem_cons_of_mem _ ht)
    refine ⟨?_, ?_⟩
    · intro t ht
      rcases List.mem_cons.1 ht with rfl | ht
      · exact Token.isReadable_of_next hl hm.1 (hc _ List.mem_cons_self)
      · exact hreadable t ht
    · rw [apart_cons_iff, List.append_nil, spelling_of_tokenizeAt hus]
      refine ⟨?_, hapart⟩
      rw [Token.runsOn, toList_token_text]
      exact Lexeme.goesOn_rest hl

theorem readable_apart_of_tokenize {source : String} {ts : List Token}
    (h : tokenize source = .ok ts) (hm : '\ufeff' ∉ source.toList)
    (hc : ∀ t ∈ ts, isLineComment t = false) :
    (∀ t ∈ ts, t.isReadable = true) ∧ apart [] ts = true := by
  refine readable_apart_of_tokenizeAt h ?_ hc
  intro hmem
  exact hm ((dropMark_suffix source.toList).subset hmem)

end Kotlinize
