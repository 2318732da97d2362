import Kotlinize.Proofs.Seam.Pairing

namespace Kotlinize

/-!
# Properties with a marked type

A property is late-initialised if a mark follows its type.  This file says what stands between its
keyword and the mark, so that a text can be changed behind the mark, and so that nothing behind a
token that could not stand there makes a mark of its own.

* `TypedHead` — a typed name and a type without trivia.
* `Marked` — the text behind the keyword of a late-initialised property.
* `Marked.of_append_cons` — a mark stands in front of the tokens that no such head holds.
* `prefixed_markLateInit_iff` — the pass writes its modifier in front of the keywords of such
  properties, and of no others.
-/

variable {t mark : Token} {head ts us rest as bs : List Token}

/-! ### Typed names with a type -/

/-- What stands between the keyword of a late-initialised property and the mark: a name, a colon,
    and a type of at least one token, with trivia in front of each but not in the type. -/
inductive TypedHead : List Token → Prop where
  | intro {before between behind type : List Token} {name colon first : Token}
      (hbefore : ∀ t ∈ before, t.isTrivia = true) (hname : name.isIdentifier = true)
      (hbetween : ∀ t ∈ between, t.isTrivia = true) (hcolon : colon.is .symbol ":" = true)
      (hbehind : ∀ t ∈ behind, t.isTrivia = true) (hfirst : first.isTrivia = false)
      (htype : ∀ t ∈ first :: type, isTypeToken lateInitTypeMarks t = true) :
      TypedHead (before ++ name :: (between ++ colon :: (behind ++ first :: type)))

/-- The text behind the keyword of a late-initialised property. -/
def Marked (ts : List Token) : Prop :=
  ∃ head mark rest, TypedHead head ∧ mark.is .symbol "!" = true ∧ ts = head ++ mark :: rest

theorem significant_append_cons (h : ∀ t ∈ as, t.isTrivia = true) (ht : t.isTrivia = false) :
    significant (as ++ t :: ts) = t :: ts := by
  rw [significant, List.dropWhile_append_of_pos h, List.dropWhile_cons_of_neg (by simp [ht])]

theorem leadingTrivia_append_cons (h : ∀ t ∈ as, t.isTrivia = true) (ht : t.isTrivia = false) :
    leadingTrivia (as ++ t :: ts) = as := by
  rw [leadingTrivia, List.takeWhile_append_of_pos h, List.takeWhile_cons_of_neg (by simp [ht]),
    List.append_nil]

/-- A mark is no part of a type. -/
theorem isTypeToken_of_mark (h : mark.is .symbol "!" = true) :
    isTypeToken lateInitTypeMarks mark = false := by
  rw [Token.is_iff] at h
  simp [isTypeToken, Token.isIdentifier, h.1, h.2, lateInitTypeMarks]

/-- A head is read as a typed name, and the run of type tokens behind it ends at the mark. -/
theorem exists_typedName?_of_typedHead (h : TypedHead head) (hm : mark.is .symbol "!" = true)
    (rest : List Token) :
    ∃ n first type, typedName? (head ++ mark :: rest) = some n ∧
      head = n.lead ++ first :: type ∧
      n.type.takeWhile (isTypeToken lateInitTypeMarks) = first :: type ∧
      n.type.dropWhile (isTypeToken lateInitTypeMarks) = mark :: rest := by
  obtain @⟨before, between, behind, type, name, colon, first, hbefore, hname, hbetween, hcolon,
    hbehind, hfirst, htype⟩ := h
  have hnameTrivia := isTrivia_of_isIdentifier hname
  have hcolonTrivia := isTrivia_of_is hcolon (by decide) (by decide) (by decide)
  have hnot : ¬ isTypeToken lateInitTypeMarks mark = true := by simp [isTypeToken_of_mark hm]
  have hwhole : before ++ name :: (between ++ colon :: (behind ++ first :: type)) ++ mark :: rest
      = before ++ name :: (between ++ colon :: (behind ++ first :: (type ++ mark :: rest))) := by
    simp
  refine ⟨⟨before ++ name :: (between ++ colon :: behind), first :: (type ++ mark :: rest)⟩, first,
    type, ?_, by simp, ?_, ?_⟩
  · rw [hwhole]
    unfold typedName?
    rw [significant_append_cons hbefore hnameTrivia, leadingTrivia_append_cons hbefore hnameTrivia]
    dsimp only
    rw [significant_append_cons hbetween hcolonTrivia,
      leadingTrivia_append_cons hbetween hcolonTrivia]
    dsimp only
    rw [hname, hcolon, Bool.and_true, if_pos rfl, significant_append_cons hbehind hfirst,
      leadingTrivia_append_cons hbehind hfirst]
  · dsimp only
    rw [← List.cons_append, List.takeWhile_append_of_pos htype, List.takeWhile_cons_of_neg hnot,
      List.append_nil]
  · dsimp only
    rw [← List.cons_append, List.dropWhile_append_of_pos htype, List.dropWhile_cons_of_neg hnot]

/-- The mark behind a head is found. -/
theorem unmarked?_of_typedHead (h : TypedHead head) (hm : mark.is .symbol "!" = true)
    (rest : List Token) : unmarked? (head ++ mark :: rest) = some (head ++ rest) := by
  obtain ⟨n, first, type, hn, rfl, htake, hdrop⟩ := exists_typedName?_of_typedHead h hm rest
  rw [unmarked?, hn]
  dsimp only
  rw [htake, hdrop]
  simp [hm]

/-- A typed name, with the first token of its type. -/
theorem typedName?_eq_some_cons {n : TypedName} {first : Token} {more : List Token}
    (h : typedName? ts = some n) (htype : n.type = first :: more) : first.isTrivia = false := by
  unfold typedName? at h
  split at h
  · cases h
  · split at h
    · cases h
    · split at h
      · cases h
        exact isTrivia_of_significant_eq_cons htype
      · cases h

theorem exists_typedHead_of_unmarked? (h : unmarked? ts = some us) :
    ∃ head mark rest, TypedHead head ∧ mark.is .symbol "!" = true ∧
      ts = head ++ mark :: rest ∧ us = head ++ rest := by
  obtain ⟨n, type, mark, rest, hn, hts, hus, hne, htype, hm⟩ := unmarked?_eq_some h
  obtain ⟨before, name, between, colon, behind, hlead, hbefore, hname, hbetween, hcolon,
    hbehind⟩ := typedName?_eq_some hn
  obtain ⟨first, more, rfl⟩ := List.exists_cons_of_ne_nil hne
  have hwhole : n.lead ++ n.type = n.lead ++ (first :: more ++ mark :: rest) :=
    (whole_of_typedName? hn).trans hts
  have hfirst := typedName?_eq_some_cons hn (List.append_cancel_left hwhole)
  refine ⟨n.lead ++ first :: more, mark, rest, ?_, hm, by simp [hts], by simp [hus]⟩
  have hhead : n.lead ++ first :: more
      = before ++ name :: (between ++ colon :: (behind ++ first :: more)) := by
    simp [hlead]
  rw [hhead]
  exact .intro hbefore hname hbetween hcolon hbehind hfirst htype

/-- The search for a mark finds one behind a head, and no other. -/
theorem isSome_unmarked?_iff : (unmarked? ts).isSome = true ↔ Marked ts := by
  rw [Option.isSome_iff_exists]
  constructor
  · rintro ⟨us, h⟩
    obtain ⟨head, mark, rest, hh, hm, rfl, -⟩ := exists_typedHead_of_unmarked? h
    exact ⟨head, mark, rest, hh, hm, rfl⟩
  · rintro ⟨head, mark, rest, hh, hm, rfl⟩
    exact ⟨head ++ rest, unmarked?_of_typedHead hh hm rest⟩

instance : Decidable (Marked ts) := decidable_of_iff _ isSome_unmarked?_iff

/-! ### What stands behind a mark, and in front of it -/

/-- Whether a token can stand in front of a mark. -/
def isHeadToken (t : Token) : Bool := t.isTrivia || isTypeToken (":" :: lateInitTypeMarks) t

theorem isHeadToken_of_isTypeToken (h : isTypeToken lateInitTypeMarks t = true) :
    isHeadToken t = true := by
  rw [isTypeToken, Bool.or_eq_true] at h
  rcases h with h | h
  · simp [isHeadToken, isTypeToken, h]
  · simp [isHeadToken, isTypeToken, List.contains_iff_mem.1 h]

theorem TypedHead.isHeadToken (h : TypedHead head) :
    ∀ t ∈ head, Kotlinize.isHeadToken t = true := by
  obtain ⟨hbefore, hname, hbetween, hcolon, hbehind, -, htype⟩ := h
  have htrivia : ∀ {t : Token}, t.isTrivia = true → Kotlinize.isHeadToken t = true := by
    intro t ht
    rw [Kotlinize.isHeadToken, ht, Bool.true_or]
  simp only [List.forall_mem_append, List.forall_mem_cons]
  refine ⟨fun t ht => htrivia (hbefore t ht), ?_, fun t ht => htrivia (hbetween t ht), ?_,
    fun t ht => htrivia (hbehind t ht), ?_⟩
  · simp [Kotlinize.isHeadToken, isTypeToken, hname]
  · simp [Kotlinize.isHeadToken, isTypeToken, (Token.is_iff.1 hcolon).2]
  · rw [List.forall_mem_cons] at htype
    exact ⟨isHeadToken_of_isTypeToken htype.1,
      fun t ht => isHeadToken_of_isTypeToken (htype.2 t ht)⟩

theorem isHeadToken_eq_false (ht : t.isTrivia = false) (hi : t.isIdentifier = false)
    (hm : t.text ∉ ":" :: lateInitTypeMarks) : isHeadToken t = false := by
  simpa [isHeadToken, isTypeToken, ht, hi] using hm

/-- No token in front of a mark declares a variable. -/
theorem TypedHead.isVariableKeyword (h : TypedHead head) :
    ∀ t ∈ head, isVariableKeyword t = false := by
  intro t ht
  rw [Bool.eq_false_iff]
  intro hv
  obtain ⟨hkind, htext⟩ := Token.is_iff.1 hv
  have hfalse : Kotlinize.isHeadToken t = false := by
    refine isHeadToken_eq_false (isTrivia_of_isKeyword ?_) ?_ ?_
    · simp [Token.isKeyword, hkind]
    · simp [Token.isIdentifier, hkind]
    · rw [htext]
      decide
  rw [h.isHeadToken t ht] at hfalse
  cases hfalse

theorem Marked.append (h : Marked as) (bs : List Token) : Marked (as ++ bs) := by
  obtain ⟨head, mark, rest, hh, hm, rfl⟩ := h
  exact ⟨head, mark, rest ++ bs, hh, hm, by simp⟩

/-- Tokens without a mark make no property a late-initialised one. -/
theorem Marked.of_append (h : Marked (as ++ bs)) (hb : ∀ t ∈ bs, t.is .symbol "!" = false) :
    Marked as := by
  obtain ⟨head, mark, rest, hh, hm, heq⟩ := h
  rcases List.append_eq_append_iff.1 heq with ⟨more, rfl, hbs⟩ | ⟨more, has, hrest⟩
  · -- The mark would be one of the tokens behind.
    have hfalse := hb mark (hbs ▸ List.mem_append_right more List.mem_cons_self)
    rw [hm] at hfalse
    cases hfalse
  · cases more with
    | nil =>
      rw [List.nil_append] at hrest
      have hfalse := hb mark (hrest ▸ List.mem_cons_self)
      rw [hm] at hfalse
      cases hfalse
    | cons u more =>
      obtain ⟨rfl, -⟩ := List.cons.inj hrest
      exact ⟨head, mark, more, hh, hm, has⟩

/-- What stands behind a token that can stand neither in front of a mark nor for one has no part
    in it. -/
theorem Marked.of_append_cons (h : Marked (as ++ t :: bs)) (hhead : Kotlinize.isHeadToken t = false)
    (hmark : t.is .symbol "!" = false) : Marked as := by
  obtain ⟨head, mark, rest, hh, hm, heq⟩ := h
  rcases List.append_eq_append_iff.1 heq with ⟨more, rfl, hbs⟩ | ⟨more, has, hrest⟩
  · cases more with
    | nil =>
      obtain ⟨rfl, -⟩ := List.cons.inj hbs
      rw [hm] at hmark
      cases hmark
    | cons u more =>
      obtain ⟨rfl, -⟩ := List.cons.inj hbs
      rw [hh.isHeadToken t (List.mem_append_right as List.mem_cons_self)] at hhead
      cases hhead
  · cases more with
    | nil =>
      obtain ⟨rfl, -⟩ := List.cons.inj hrest
      rw [hm] at hmark
      cases hmark
    | cons u more =>
      obtain ⟨rfl, -⟩ := List.cons.inj hrest
      exact ⟨head, mark, more, hh, hm, has⟩

/-! ### Modifiers -/

/-- The modifier of a late-initialised property stands in front of a token. -/
def Prefixed (v : Token) (ts : List Token) : Prop := lateInitModifier ++ [v] <:+: ts

/-- The keyword of a late-initialised property stands in a text. -/
def MarkedBehind (v : Token) (ts : List Token) : Prop :=
  ∃ before behind, ts = before ++ v :: behind ∧ Marked behind

variable {v : Token}

theorem markedBehind_cons_iff :
    MarkedBehind v (t :: ts) ↔ (t = v ∧ Marked ts) ∨ MarkedBehind v ts := by
  constructor
  · rintro ⟨before, behind, heq, hm⟩
    cases before with
    | nil =>
      obtain ⟨rfl, rfl⟩ := List.cons.inj heq
      exact .inl ⟨rfl, hm⟩
    | cons u before =>
      obtain ⟨rfl, rfl⟩ := List.cons.inj heq
      exact .inr ⟨before, behind, rfl, hm⟩
  · rintro (⟨rfl, hm⟩ | ⟨before, behind, rfl, hm⟩)
    · exact ⟨[], ts, rfl, hm⟩
    · exact ⟨t :: before, behind, rfl, hm⟩

theorem markedBehind_append_iff (h : v ∉ as) : MarkedBehind v (as ++ bs) ↔ MarkedBehind v bs := by
  induction as with
  | nil => rfl
  | cons t as ih =>
    rw [List.mem_cons, not_or] at h
    rw [List.cons_append, markedBehind_cons_iff, ih h.2]
    exact or_iff_right fun hv => h.1 hv.1.symm

theorem prefixed_cons_iff (ht : t.is .keyword "lateinit" = false) :
    Prefixed v (t :: ts) ↔ Prefixed v ts := by
  rw [Prefixed, List.infix_cons_iff]
  refine or_iff_right fun hp => ?_
  obtain ⟨rfl, -⟩ := List.cons_prefix_cons.1 hp
  cases ht

theorem prefixed_append_modifier_iff (ht : t.is .keyword "lateinit" = false) :
    Prefixed v (lateInitModifier ++ [t] ++ ts) ↔ t = v ∨ Prefixed v ts := by
  have hspace : Token.space.is .keyword "lateinit" = false := rfl
  show Prefixed v (.keyword "lateinit" :: .space :: t :: ts) ↔ _
  rw [Prefixed, List.infix_cons_iff]
  refine or_congr ?_ ((prefixed_cons_iff hspace).trans (prefixed_cons_iff ht))
  simp [lateInitModifier, eq_comm]

/-- **The pass writes its modifier in front of the keywords of late-initialised properties**, and
    of no others. -/
theorem prefixed_markLateInit_iff (hv : isVariableKeyword v = true)
    (h : ∀ t ∈ ts, t.is .keyword "lateinit" = false) :
    Prefixed v (markLateInit ts).tokens ↔ MarkedBehind v ts := by
  fun_induction markLateInit ts with
  | case1 =>
    constructor
    · rintro ⟨before, behind, heq⟩
      simp at heq
    · rintro ⟨before, behind, heq, -⟩
      simp at heq
  | case2 t ts us hu ih =>
    obtain ⟨ht, hu⟩ : isVariableKeyword t = true ∧ unmarked? ts = some us :=
      Option.ite_none_right_eq_some.1 hu
    obtain ⟨head, mark, rest, hh, hm, rfl, rfl⟩ := exists_typedHead_of_unmarked? hu
    -- The pass is at a keyword, which is `v` or not; nothing up to the mark is a keyword.
    have hplain : t.is .keyword "lateinit" = false := h t List.mem_cons_self
    have hhead : v ∉ head := fun hmem =>
      Bool.false_ne_true ((hh.isVariableKeyword v hmem).symm.trans hv)
    have hmark : v ∉ head ++ [mark] := by
      rw [List.mem_append, List.mem_singleton, not_or]
      refine ⟨hhead, ?_⟩
      rintro rfl
      rw [isVariableKeyword, Token.is_iff] at hv
      rw [Token.is_iff, hv.1] at hm
      cases hm.1
    have hrest : ∀ u ∈ head ++ rest, u.is .keyword "lateinit" = false := by
      intro u hu
      apply h u
      simp only [List.mem_append, List.mem_cons] at hu ⊢
      rcases hu with hu | hu
      · exact .inr (.inl hu)
      · exact .inr (.inr (.inr hu))
    have hsplit : head ++ mark :: rest = head ++ [mark] ++ rest := by simp
    rw [Edited.tokens_counted, Edited.tokens_append, prefixed_append_modifier_iff hplain,
      markedBehind_cons_iff, ih hrest, markedBehind_append_iff hhead, hsplit,
      markedBehind_append_iff hmark, ← hsplit]
    exact or_congr_left (and_iff_left ⟨head, mark, rest, hh, hm, rfl⟩).symm
  | case3 t ts hu ih =>
    rw [List.forall_mem_cons] at h
    rw [Edited.tokens_cons, prefixed_cons_iff h.1, markedBehind_cons_iff, ih h.2]
    refine (or_iff_right ?_).symm
    rintro ⟨rfl, hmarked⟩
    rw [dif_pos hv] at hu
    rw [← isSome_unmarked?_iff, hu] at hmarked
    cases hmarked

end Kotlinize
