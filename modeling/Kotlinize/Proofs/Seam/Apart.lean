import Kotlinize.Proofs.Seam.Readable

namespace Kotlinize

/-!
# Tokens that stay apart

A token that a stop or spacing follows runs on into nothing, and some tokens never run on.  That
is all it takes to see that the edits over functions keep the tokens of a text apart.

* `halts` — whether no token runs on into a text.
* `runsOn_of_kind`, `runsOn_of_separator` — tokens that never run on.
* `apart_gapBefore`, `apart_dropEndIf` — what edits put in front of their tokens, and take away.
* `Rewrite.apart_of_functions` — the stages over functions keep every list apart.
-/

variable {config : Config} {stage : Stage} {as bs ts : List Token}

/-! ### Texts that end what stands in front of them -/

/-- Whether no token runs on into a text, because it is empty or starts with a stop. -/
def halts (rest : List Char) : Bool := rest.head?.all stops.contains

theorem exists_of_halts {rest : List Char} (h : halts rest = true) :
    rest = [] ∨ ∃ s more, s ∈ stops ∧ rest = s :: more := by
  cases rest with
  | nil => exact Or.inl rfl
  | cons s more => exact Or.inr ⟨s, more, List.contains_iff_mem.1 h, rfl⟩

theorem runsOn_of_halts {rest : List Char} (h : halts rest = true) (t : Token) :
    t.runsOn rest = false := by
  have hf := LooksAhead.lexeme t.kind t.text.toList
  rcases exists_of_halts h with rfl | ⟨s, more, hs, rfl⟩
  · exact hf.nil
  · exact (hf.stop [] s more hs).trans hf.nil

theorem apart_of_halts {rest : List Char} (h : halts rest = true) (ts : List Token) :
    apart rest ts = apart [] ts := by
  rcases exists_of_halts h with rfl | ⟨s, more, hs, rfl⟩
  · rfl
  · exact apart_stop hs more ts

/-- What halts at the end of some text leaves that text alone. -/
theorem apart_append_of_halts {p rest : List Char} (h : halts rest = true) (ts : List Token) :
    apart (p ++ rest) ts = apart p ts := by
  rcases exists_of_halts h with rfl | ⟨s, more, hs, rfl⟩
  · rw [List.append_nil]
  · exact apart_append_stop hs p more ts

/-- A readable blank or line end halts what stands in front of it. -/
theorem halts_of_isSpacing {t : Token} (hr : t.isReadable = true) (hs : t.isSpacing = true)
    (rest : List Char) : halts (t.text.toList ++ rest) = true := by
  obtain ⟨c, cs, hcs⟩ := List.exists_cons_of_ne_nil (Token.ne_nil_of_isReadable hr)
  have hc := Token.spacing_of_isReadable hr hs c (by rw [hcs]; exact List.mem_cons_self)
  rw [hcs]
  show stops.contains c = true
  simp only [isBlank, isLineEnd, Bool.or_eq_true, beq_iff_eq] at hc
  rcases hc with (rfl | rfl) | rfl | rfl <;> rfl

/-! ### Tokens that never run on -/

/-- Spacing, comments and brackets end where they end. -/
theorem runsOn_of_kind {t : Token} (h : t.isTrivia = true ∨ t.kind = .startOfScope
    ∨ t.kind = .endOfScope) (rest : List Char) : t.runsOn rest = false := by
  rw [Token.isTrivia, Token.isSpacing, Bool.or_eq_true, Bool.or_eq_true, beq_iff_eq, beq_iff_eq,
    beq_iff_eq] at h
  unfold Token.runsOn
  rcases h with ((h | h) | h) | h | h <;> rw [h] <;> rfl

theorem runsOn_of_opens {b : Bracket} {t : Token} (h : b.opens t = true) (rest : List Char) :
    t.runsOn rest = false :=
  runsOn_of_kind (Or.inr (Or.inl (Token.is_iff.1 h).1)) rest

theorem runsOn_of_closes {b : Bracket} {t : Token} (h : b.closes t = true) (rest : List Char) :
    t.runsOn rest = false :=
  runsOn_of_kind (Or.inr (Or.inr (Token.is_iff.1 h).1)) rest

/-- No operator of the list starts with a comma or a colon. -/
theorem runsOn_of_separator {t : Token} (h : t.is .symbol "," = true ∨ t.is .symbol ":" = true)
    (rest : List Char) : t.runsOn rest = false := by
  have hsep : ∀ c : Char, c = ',' ∨ c = ':' → symbolGoesOn [c] rest = false := by
    intro c hc
    have hall : (operators.all fun op => op.head?.all fun d => d != ',' && d != ':') = true := by
      decide
    have hany : (operators.any fun op =>
        decide (1 < op.length) && op.isPrefixOf ([c] ++ rest)) = false := by
      rw [List.any_eq_false]
      intro op hop hgo
      rw [Bool.and_eq_true, List.isPrefixOf_iff_prefix] at hgo
      cases op with
      | nil => cases hgo.1
      | cons d op =>
        obtain ⟨more, hmore⟩ := hgo.2
        obtain ⟨rfl, -⟩ := List.cons.inj hmore
        have hd : (d != ',' && d != ':') = true := List.all_eq_true.1 hall _ hop
        rcases hc with rfl | rfl <;> cases hd
    unfold symbolGoesOn
    rw [List.length_singleton, hany]
    rcases hc with rfl | rfl <;> rfl
  unfold Token.runsOn
  rcases h with h | h
  · rw [Token.is_iff] at h
    rw [h.1, h.2]
    exact hsep ',' (Or.inl rfl)
  · rw [Token.is_iff] at h
    rw [h.1, h.2]
    exact hsep ':' (Or.inr rfl)

theorem apart_of_isTrivia (h : ∀ t ∈ ts, t.isTrivia = true) (rest : List Char) :
    apart rest ts = true := by
  induction ts with
  | nil => rfl
  | cons t ts ih =>
    rw [apart_cons_iff]
    exact ⟨runsOn_of_kind (Or.inl (h t List.mem_cons_self)) _,
      ih fun u hu => h u (List.mem_cons_of_mem t hu)⟩

theorem apart_left {rest : List Char} (h : apart rest (as ++ bs) = true) : apart [] as = true :=
  apart_of_append (apart_append_iff.1 h).1

theorem apart_right {rest : List Char} (h : apart rest (as ++ bs) = true) :
    apart rest bs = true :=
  (apart_append_iff.1 h).2

/-! ### Gaps -/

/-- Behind spacing at its end nothing that follows matters to a list. -/
theorem apart_append_spacing {t : Token} (hr : t.isReadable = true) (hs : t.isSpacing = true)
    (rest : List Char) (ts : List Token) : apart rest (ts ++ [t]) = apart [] ts := by
  have hhalt : apart (t.text.toList ++ rest) ts = apart [] ts :=
    apart_of_halts (halts_of_isSpacing hr hs rest) ts
  have hspelling : spelling [t] = t.text.toList := by
    rw [spelling_cons]
    exact List.append_nil _
  rw [Bool.eq_iff_iff, apart_append_iff, hspelling, hhalt]
  exact and_iff_left (apart_cons_iff.2 ⟨runsOn_of_isSpacing hs _, rfl⟩)

/-- A gap keeps the tokens in front of it apart from what follows. -/
theorem apart_gapAfter (hr : Readable ts) (rest : List Char) :
    apart rest (ts ++ gapAfter ts) = apart [] ts := by
  unfold gapAfter
  split
  · rename_i h
    obtain ⟨t, ht, hw⟩ := (Option.any_eq_true _ _).1 h
    obtain ⟨us, rfl⟩ := List.getLast?_eq_some_iff.1 ht
    have hs := isSpacing_of_isWhitespace hw
    have hread := (readable_append_iff.1 hr).2 t List.mem_cons_self
    rw [List.append_nil, apart_append_spacing hread hs, apart_append_spacing hread hs]
  · exact apart_append_spacing isReadable_space rfl rest ts

/-- A gap in front of a list halts what stands in front of the gap. -/
theorem halts_gapBefore (hr : Readable ts) (rest : List Char) :
    halts (spelling (gapBefore ts ++ ts) ++ rest) = true := by
  unfold gapBefore
  split
  · rename_i h
    obtain ⟨t, ht, hw⟩ := (Option.any_eq_true _ _).1 h
    obtain ⟨us, rfl⟩ := List.head?_eq_some_iff.1 ht
    rw [List.nil_append, spelling_cons, List.append_assoc]
    exact halts_of_isSpacing (hr t List.mem_cons_self) (isSpacing_of_isWhitespace hw) _
  · rfl

theorem apart_gapBefore (h : apart [] ts = true) : apart [] (gapBefore ts ++ ts) = true := by
  rcases gapBefore_eq ts with hg | hg <;> rw [hg]
  · exact h
  · exact apart_cons_iff.2 ⟨runsOn_of_isSpacing rfl _, h⟩

/-- A list without a blank at its end, which is a stop, is as much apart as before. -/
theorem apart_dropEndIf (hr : Readable ts) {p : Token → Bool}
    (hp : ∀ t, p t = true → t.isSpacing = true) :
    apart [] (dropEndIf p ts) = apart [] ts := by
  rcases dropEndIf_eq p ts with h | ⟨t, ht, h⟩
  · rw [h]
  · rw [h, readable_append_iff, readable_cons_iff] at hr
    have hspacing := apart_append_spacing hr.2.1 (hp t ht) [] (dropEndIf p ts)
    rw [← h] at hspacing
    exact hspacing.symm

/-! ### The stages over functions -/

/-- An equals sign stands between spaces, or behind nothing. -/
theorem apart_equalsSign (hr : Readable as) (hr' : Readable bs) (ha : apart [] as = true)
    (hb : apart [] bs = true) :
    apart [] (as ++ (equalsSign as.reverse bs ++ bs)) = true := by
  have hsign : apart [] (.symbol "=" :: (gapBefore bs ++ bs)) = true :=
    apart_cons_iff.2 ⟨runsOn_of_halts (halts_gapBefore hr' []) _, apart_gapBefore hb⟩
  unfold equalsSign
  rw [List.head?_reverse]
  by_cases hw : as.getLast?.any (fun t => !t.isWhitespace) = true
  · rw [if_pos hw]
    show apart [] (as ++ .space :: .symbol "=" :: (gapBefore bs ++ bs)) = true
    rw [apart_append_iff, apart_cons_iff]
    refine ⟨?_, runsOn_of_isSpacing rfl _, hsign⟩
    rw [apart_of_halts rfl]
    exact ha
  · rw [if_neg hw]
    show apart [] (as ++ .symbol "=" :: (gapBefore bs ++ bs)) = true
    rw [apart_append_iff]
    -- Without a space in front, the sign stands first or behind a blank.
    refine ⟨?_, hsign⟩
    rcases List.eq_nil_or_concat as with rfl | ⟨us, t, rfl⟩
    · rfl
    · rw [List.concat_eq_append] at hr ha hw ⊢
      have ht : t.isWhitespace = true := by simpa using hw
      rw [apart_append_spacing (hr t (by simp)) (isSpacing_of_isWhitespace ht)]
      exact apart_left ha

/-- A parameter that loses its label follows a parenthesis or a comma, and trivia. -/
theorem apart_dropLabel {pre : List Token} {separator : Token} {parameter bare post : List Token}
    (hs : Bracket.round.opens separator = true ∨ separator.is .symbol "," = true)
    (hp : unlabelled? parameter = some bare)
    (ha : apart [] (pre ++ separator :: (parameter ++ post)) = true) :
    apart [] (pre ++ separator :: (bare ++ post)) = true := by
  obtain ⟨trivia, label, spacing, rest, rfl, rfl, htrivia, -⟩ := unlabelled?_eq_some hp
  have hrun : ∀ more : List Char, separator.runsOn more = false := by
    intro more
    rcases hs with hs | hs
    · exact runsOn_of_opens hs more
    · exact runsOn_of_separator (Or.inl hs) more
  have hhalt : ∀ us : List Token, halts (spelling (separator :: us) ++ []) = true := by
    intro us
    have htext : separator.text = "(" ∨ separator.text = "," := by
      rcases hs with hs | hs
      · exact Or.inl (Token.is_iff.1 hs).2
      · exact Or.inr (Token.is_iff.1 hs).2
    rw [spelling_cons]
    rcases htext with htext | htext <;> rw [htext] <;> rfl
  -- What stands behind the label was apart from what follows it.
  have hrest : apart [] (rest ++ post) = true := by
    have hlist : pre ++ separator :: ((trivia ++ label :: (spacing ++ rest)) ++ post)
        = (pre ++ separator :: (trivia ++ label :: spacing)) ++ (rest ++ post) := by simp
    rw [hlist] at ha
    exact apart_right ha
  rw [apart_append_iff, apart_of_halts (hhalt _)] at ha ⊢
  refine ⟨ha.1, apart_cons_iff.2 ⟨hrun _, ?_⟩⟩
  rw [List.append_assoc, apart_append_iff]
  exact ⟨apart_of_isTrivia htrivia _, hrest⟩

/-- The colon of a result type is a stop, and a gap stands behind it. -/
theorem apart_returnArrow {pre : List Token} {keyword : Token} {s : Signature}
    (ha : apart [] (pre ++ keyword :: s.whole) = true) :
    apart [] (pre ++ keyword :: (dropSpacingEnd s.before
      ++ .symbol ":" :: (gapBefore s.result ++ s.result))) = true := by
  obtain ⟨spacing, -, hbefore⟩ := exists_eq_dropSpacingEnd_append s.before
  have hlist : pre ++ keyword :: s.whole = (pre ++ keyword :: dropSpacingEnd s.before)
      ++ ((spacing ++ [s.arrow]) ++ s.result) := by
    rw [Signature.whole]
    conv => lhs; rw [hbefore]
    simp
  rw [hlist] at ha
  have hresult : apart [] s.result = true := apart_right (apart_right ha)
  rw [show pre ++ keyword :: (dropSpacingEnd s.before
      ++ .symbol ":" :: (gapBefore s.result ++ s.result))
    = (pre ++ keyword :: dropSpacingEnd s.before)
      ++ (.symbol ":" :: (gapBefore s.result ++ s.result)) by simp, apart_append_iff,
    apart_cons_iff]
  refine ⟨?_, runsOn_of_separator (Or.inr rfl) _, apart_gapBefore hresult⟩
  rw [apart_of_halts rfl]
  exact apart_left ha

/-- The stages over functions make no seams: what they leave is apart if it was so before. -/
theorem Rewrite.apart_of_functions (h : Rewrite .default stage as bs)
    (hfun : stage ∈ StageGroup.functions.stages) (hr : Readable as) (ha : apart [] as = true) :
    apart [] bs = true := by
  cases h with
  | nameArgument pre colon post =>
    have hlist : pre ++ colon :: post = (pre ++ [colon]) ++ post := by simp
    rw [readable_append_iff, readable_cons_iff] at hr
    refine apart_equalsSign hr.1 hr.2.2 (apart_left ha) ?_
    rw [hlist] at ha
    exact apart_right ha
  | dropLabel pre separator parameter bare post hs hp => exact apart_dropLabel hs hp ha
  | returnArrow pre keyword ts s hk hs =>
    rw [← whole_of_signature? hs] at ha
    exact apart_returnArrow ha
  | suffixAccessors => exact absurd hfun (by decide)
  | relocateSetter => exact absurd hfun (by decide)
  | markLateInit => exact absurd hfun (by decide)

end Kotlinize
