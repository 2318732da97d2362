import Kotlinize.Proofs.LateInit.Marked

namespace Kotlinize

/-!
# What stands behind the type of a property with accessors

When the accessors of a property leave their braces, the first of them comes to stand behind the
type.  If the braces hold nothing else in front of it, that is a word of its own with a parenthesis
behind it, whether the accessor had one before or not.

* `PropertyBody.startsWithAccessor` — an accessor stands first in the braces of a property.
* `accessorAt?_append`, `accessor?_cut` — accessors behind other tokens.
* `openGetter_append`, `openSetter_append` — an edit changes nothing in front of its accessor.
* `AccessorHead` — the start of an accessor, which makes no mark.
* `exists_withoutBraces` — what follows the type in the end.
-/

variable {config : Config} {name : String} {t w : Token} {as bs : List Token}

/-! ### Properties that start with an accessor -/

/-- Whether a token may stand in front of the first accessor of a property. -/
def precedesAccessor (t : Token) : Bool :=
  t.isTrivia || ((t.isKeyword || t.isIdentifier) && accessorModifiers.contains t.text)

/-- Whether a token is the word of an accessor. -/
def isAccessorWord (t : Token) : Bool := t.is .identifier "get" || t.is .identifier "set"

/-- Whether the braces of a property hold an accessor first, perhaps behind modifiers. -/
def PropertyBody.startsWithAccessor (p : PropertyBody) : Bool :=
  (p.enclosed.inside.dropWhile precedesAccessor).head?.any isAccessorWord

theorem kind_of_precedesAccessor (h : precedesAccessor t = true) :
    t.kind ≠ .symbol ∧ t.kind ≠ .startOfScope ∧ t.kind ≠ .endOfScope := by
  rw [precedesAccessor, Token.isTrivia, Token.isSpacing, Token.isKeyword, Token.isIdentifier] at h
  refine ⟨?_, ?_, ?_⟩ <;> intro hk <;> simp [hk] at h

theorem text_of_precedesAccessor (h : precedesAccessor t = true) :
    t.isTrivia = true ∨ t.text ∈ accessorModifiers := by
  rw [precedesAccessor, Bool.or_eq_true, Bool.and_eq_true] at h
  exact h.imp_right fun h => List.contains_iff_mem.1 h.2

theorem is_eq_false_of_precedesAccessor (h : precedesAccessor t = true)
    (hname : name ∉ accessorModifiers) : t.is .identifier name = false := by
  rw [Bool.eq_false_iff]
  intro ht
  obtain ⟨hkind, htext⟩ := Token.is_iff.1 ht
  rcases text_of_precedesAccessor h with htrivia | hmem
  · simp [Token.isTrivia, Token.isSpacing, hkind] at htrivia
  · exact hname (htext ▸ hmem)

theorem isVariableKeyword_of_precedesAccessor (h : precedesAccessor t = true) :
    isVariableKeyword t = false := by
  rw [Bool.eq_false_iff]
  intro hv
  obtain ⟨hkind, htext⟩ := Token.is_iff.1 hv
  rcases text_of_precedesAccessor h with ht | ht
  · simp [Token.isTrivia, Token.isSpacing, hkind] at ht
  · rw [htext] at ht
    exact absurd ht (by decide)

/-! ### Accessors behind other tokens -/

/-- More tokens in front. -/
def Accessor.prepend (as : List Token) (a : Accessor) : Accessor :=
  { a with before := as ++ a.before }

/-- A search passes over tokens that are not its word. -/
theorem accessorAt?_append (h : ∀ t ∈ as, t.is .identifier name = false) (depth : Nat)
    (ready : Bool) (bs : List Token) :
    ∃ depth' ready', accessorAt? name depth ready (as ++ bs)
      = (accessorAt? name depth' ready' bs).map (Accessor.prepend as) := by
  induction as generalizing depth ready with
  | nil =>
    refine ⟨depth, ready, ?_⟩
    rw [List.nil_append]
    cases accessorAt? name depth ready bs <;> rfl
  | cons t as ih =>
    rw [List.forall_mem_cons] at h
    obtain ⟨depth', ready', hrest⟩ :=
      ih h.2 (t.depthFrom depth) (if t.isTrivia then ready else startsAfter t)
    refine ⟨depth', ready', ?_⟩
    rw [List.cons_append, accessorAt?, h.1, Bool.false_and, Bool.false_and,
      if_neg Bool.false_ne_true, hrest, Option.map_map]
    rfl

/-- Behind tokens that may precede an accessor, its word is found. -/
theorem accessor?_cut (has : ∀ t ∈ as, precedesAccessor t = true) (hname : name ∉ accessorModifiers)
    (hw : w.is .identifier name = true) (bs : List Token) :
    accessor? name (as ++ w :: bs) = some ⟨as, w, bs⟩ := by
  rw [accessor?]
  induction as with
  | nil => rw [List.nil_append, accessorAt?, hw]; rfl
  | cons t as ih =>
    rw [List.forall_mem_cons] at has
    obtain ⟨hsymbol, hopen, hclose⟩ := kind_of_precedesAccessor has.1
    have hdepth : t.depthFrom 0 = 0 := by
      unfold Token.depthFrom
      split
      · exact absurd ‹_› hopen
      · rfl
      · rfl
    have hready : (if t.isTrivia then true else startsAfter t) = true := by
      rcases text_of_precedesAccessor has.1 with ht | ht
      · rw [if_pos ht]
      · simp [startsAfter, ht]
    rw [List.cons_append, accessorAt?, is_eq_false_of_precedesAccessor has.1 hname,
      Bool.false_and, Bool.false_and, if_neg Bool.false_ne_true, hdepth, hready, ih has.2]
    rfl

/-! ### Edits behind other tokens -/

theorem openGetter_append (h : ∀ t ∈ as, t.is .identifier "get" = false) (bs : List Token) :
    ∃ more, openGetter (as ++ bs) = as ++ more := by
  obtain ⟨depth, ready, hfind⟩ := accessorAt?_append h 0 true bs
  unfold openGetter accessor?
  rw [hfind]
  cases accessorAt? "get" depth ready bs with
  | none => exact ⟨bs, rfl⟩
  | some a => exact ⟨_, by simp only [Option.map_some, Accessor.prepend, List.append_assoc]; rfl⟩

theorem openSetter_append (h : ∀ t ∈ as, t.is .identifier "set" = false) (bs : List Token) :
    ∃ more, openSetter config (as ++ bs) = as ++ more := by
  obtain ⟨depth, ready, hfind⟩ := accessorAt?_append h 0 true bs
  unfold openSetter accessor?
  rw [hfind]
  cases accessorAt? "set" depth ready bs with
  | none => exact ⟨bs, rfl⟩
  | some a =>
    rw [Option.map_some]
    dsimp only
    split
    · exact ⟨_, by simp only [Accessor.prepend, List.append_assoc]; rfl⟩
    · exact ⟨bs, rfl⟩

theorem dropEndIf_append_cons {p : Token → Bool} (ht : p t = false) (as bs : List Token) :
    ∃ more, dropEndIf p (as ++ t :: bs) = as ++ t :: more := by
  rcases dropEndIf_eq p (as ++ t :: bs) with h | ⟨u, hu, h⟩
  · exact ⟨bs, h⟩
  · rcases List.eq_nil_or_concat bs with rfl | ⟨more, b, rfl⟩
    · -- The last token is the one that stays.
      obtain ⟨-, heq⟩ := List.append_inj' h rfl
      obtain rfl := List.head_eq_of_cons_eq heq
      rw [hu] at ht
      cases ht
    · rw [List.concat_eq_append] at h ⊢
      have hwhole : as ++ t :: more ++ [b] = dropEndIf p (as ++ t :: (more ++ [b])) ++ [u] := by
        rw [← h]
        simp
      exact ⟨more, (List.append_inj' hwhole rfl).1.symm⟩

theorem unclosed_append_cons (hw : t.isWhitespace = false) (hl : t.isLinebreak = false)
    (as bs tail : List Token) : ∃ more, unclosed (as ++ t :: bs) tail = as ++ t :: more := by
  obtain ⟨more, hmore⟩ := dropEndIf_append_cons hw as bs
  unfold unclosed
  rw [hmore]
  dsimp only
  split
  · exact dropEndIf_append_cons hl as more
  · exact ⟨more, rfl⟩

/-! ### Accessors with a body -/

/-- An accessor with a body has an opening bracket behind it, inside the braces of its property. -/
theorem exists_of_startsBody {close : Token} (h : startsBody (as ++ close :: bs) = true)
    (hc : Bracket.curly.closes close = true) :
    ∃ trivia opener rest, as = trivia ++ opener :: rest ∧ (∀ t ∈ trivia, t.isTrivia = true) ∧
      (Bracket.round.opens opener = true ∨ Bracket.curly.opens opener = true) := by
  have hwhole := leadingTrivia_append_significant as
  have htrivia : ∀ t ∈ leadingTrivia as, t.isTrivia = true := fun t =>
    isTrivia_of_mem_leadingTrivia
  unfold startsBody at h
  cases hs : significant as with
  | nil =>
    -- A closing brace starts no body.
    rw [hs, List.append_nil] at hwhole
    rw [hwhole] at htrivia
    rw [significant_append_cons htrivia (isTrivia_of_closes hc)] at h
    rw [Bracket.closes, Token.is_iff] at hc
    simp [Bracket.opens, Token.is, hc.1] at h
  | cons opener rest =>
    rw [hs] at hwhole
    refine ⟨leadingTrivia as, opener, rest, hwhole.symm, htrivia, ?_⟩
    rw [← hwhole, List.append_assoc, List.cons_append,
      significant_append_cons htrivia (isTrivia_of_significant_eq_cons hs)] at h
    dsimp only at h
    by_cases ho : Bracket.round.opens opener = true
    · exact .inl ho
    · rw [if_neg ho] at h
      exact .inr h

theorem hasBody_of_form {p : PropertyBody} {settable : Bool} {a : Accessor}
    (hf : p.form = .accessors settable) (hname : name ∈ ["get", "set"])
    (ha : p.accessor? name = some a) : a.hasBody p.beyond = true := by
  unfold PropertyBody.form at hf
  split at hf
  · cases hf
  · split at hf
    · cases hf
    · rename_i hbodies
      rw [List.any_eq_true] at hbodies
      rw [← Bool.not_eq_false]
      intro hnone
      exact hbodies ⟨name, hname, by simp [ha, hnone]⟩

/-! ### The start of an accessor -/

/-- An opening bracket, a square one apart, stands neither in front of a mark nor for one. -/
theorem isHeadToken_of_opens {b : Bracket} (hb : b.opener ∉ lateInitTypeMarks)
    (h : b.opens t = true) : isHeadToken t = false ∧ t.is .symbol "!" = false := by
  obtain ⟨hkind, htext⟩ := Token.is_iff.1 h
  refine ⟨isHeadToken_eq_false (isTrivia_of_opens h) ?_ ?_, ?_⟩
  · simp [Token.isIdentifier, hkind]
  · rw [htext, List.mem_cons, not_or]
    exact ⟨by cases b <;> decide, hb⟩
  · simp [Token.is, hkind]

/-- The start of an accessor with a parenthesis, up to the parenthesis. -/
inductive AccessorHead : List Token → Prop where
  | intro {before trivia : List Token} {w opener : Token}
      (hbefore : ∀ t ∈ before, precedesAccessor t = true) (hw : isAccessorWord w = true)
      (htrivia : ∀ t ∈ trivia, t.isTrivia = true) (ho : Bracket.round.opens opener = true) :
      AccessorHead (before ++ w :: (trivia ++ [opener]))

theorem isIdentifier_of_isAccessorWord (h : isAccessorWord w = true) : w.isIdentifier = true := by
  rw [isAccessorWord, Bool.or_eq_true, Token.is_iff, Token.is_iff] at h
  rcases h with h | h <;> simp [Token.isIdentifier, h.1]

namespace AccessorHead

variable {head : List Token}

theorem isVariableKeyword (h : AccessorHead head) :
    ∀ t ∈ head, Kotlinize.isVariableKeyword t = false := by
  obtain ⟨hbefore, hw, htrivia, ho⟩ := h
  simp only [List.forall_mem_append, List.forall_mem_cons]
  refine ⟨fun t ht => isVariableKeyword_of_precedesAccessor (hbefore t ht),
    isVariableKeyword_of_isInert (isInert_of_isIdentifier (isIdentifier_of_isAccessorWord hw)),
    fun t ht => isVariableKeyword_of_isInert (isInert_of_isTrivia (htrivia t ht)), ?_, nofun⟩
  simp [Kotlinize.isVariableKeyword, Token.is, (Token.is_iff.1 ho).1]

/-- No mark stands in it, and its parenthesis stands in front of none. -/
theorem exists_stop (h : AccessorHead head) :
    ∃ more stop, head = more ++ [stop] ∧ (∀ t ∈ more, t.is .symbol "!" = false) ∧
      stop.is .symbol "!" = false ∧ isHeadToken stop = false := by
  obtain @⟨before, trivia, w, opener, hbefore, hw, htrivia, ho⟩ := h
  obtain ⟨hhead, hmark⟩ := isHeadToken_of_opens (by decide) ho
  refine ⟨before ++ w :: trivia, opener, by simp, ?_, hmark, hhead⟩
  simp only [List.forall_mem_append, List.forall_mem_cons]
  refine ⟨fun t ht => ?_, ?_, fun t ht => ?_⟩
  · simp [Token.is, (kind_of_precedesAccessor (hbefore t ht)).1]
  · have hident := isIdentifier_of_isAccessorWord hw
    rw [Token.isIdentifier, beq_iff_eq] at hident
    simp [Token.is, hident]
  · rw [Bool.eq_false_iff]
    intro hm
    have hfalse := isTrivia_of_is hm (by decide) (by decide) (by decide)
    rw [htrivia t ht] at hfalse
    cases hfalse

end AccessorHead

/-! ### Accessors with a parenthesis -/

section Edits

variable (has : ∀ t ∈ as, precedesAccessor t = true)
include has

/-- A getter at the front gets a parenthesis. -/
theorem exists_head_of_getter (hw : w.is .identifier "get" = true) (bs : List Token) :
    ∃ head rest, AccessorHead head ∧
      openGetter (openSetter config (as ++ w :: bs)) = head ++ rest := by
  -- The edit of the setter leaves the getter in front of it alone.
  have hfront : ∀ t ∈ as ++ [w], t.is .identifier "set" = false := by
    rw [List.forall_mem_append, List.forall_mem_singleton]
    refine ⟨fun t ht => is_eq_false_of_precedesAccessor (has t ht) (by decide), ?_⟩
    simp [Token.is, (Token.is_iff.1 hw).2]
  obtain ⟨more, hmore⟩ : ∃ more, openSetter config (as ++ [w] ++ bs) = as ++ [w] ++ more :=
    openSetter_append hfront bs
  rw [List.append_assoc, List.append_assoc, List.singleton_append, List.singleton_append] at hmore
  have hgap : ∀ t ∈ as ++ gapAfter as, precedesAccessor t = true := by
    rw [List.forall_mem_append]
    refine ⟨has, ?_⟩
    rcases gapAfter_eq as with h | h <;> rw [h]
    · exact List.forall_mem_nil _
    · exact List.forall_mem_singleton.2 rfl
  have hopen : openGetter (as ++ w :: more)
      = as ++ gapAfter as ++ w :: (parentheses [] ++ more) := by
    unfold openGetter
    rw [accessor?_cut has (by decide) hw]
  have hword : isAccessorWord w = true := by rw [isAccessorWord, hw, Bool.true_or]
  have hhead : AccessorHead (as ++ gapAfter as ++ w :: ([] ++ [Bracket.round.openToken])) :=
    .intro hgap hword (List.forall_mem_nil _) (by decide)
  refine ⟨_, Bracket.round.closeToken :: more, hhead, ?_⟩
  rw [hmore, hopen]
  simp [parentheses]

variable {trivia rest : List Token} {opener : Token}

/-- A setter at the front with a body gets a parenthesis unless it has one. -/
theorem exists_openSetter_cut (hw : w.is .identifier "set" = true)
    (htrivia : ∀ t ∈ trivia, t.isTrivia = true)
    (ho : Bracket.round.opens opener = true ∨ Bracket.curly.opens opener = true) :
    ∃ trivia' opener' rest',
      openSetter config (as ++ w :: (trivia ++ opener :: rest))
        = as ++ w :: (trivia' ++ [opener']) ++ rest' ∧
      (∀ t ∈ trivia', t.isTrivia = true) ∧ Bracket.round.opens opener' = true := by
  have ht : opener.isTrivia = false := ho.elim isTrivia_of_opens isTrivia_of_opens
  unfold openSetter
  rw [accessor?_cut has (by decide) hw]
  dsimp only
  rw [significant_append_cons htrivia ht, List.head?_cons, Option.any_some]
  split
  · exact ⟨[], Bracket.round.openToken,
      .identifier config.implicitSetterParameter :: Bracket.round.closeToken
        :: (trivia ++ opener :: rest), by simp [parentheses], nofun, by decide⟩
  · rename_i hcurly
    exact ⟨trivia, opener, rest, by simp, htrivia, ho.resolve_right hcurly⟩

theorem exists_head_of_setter (hw : w.is .identifier "set" = true)
    (htrivia : ∀ t ∈ trivia, t.isTrivia = true)
    (ho : Bracket.round.opens opener = true ∨ Bracket.curly.opens opener = true) :
    ∃ head rest', AccessorHead head ∧
      openGetter (openSetter config (as ++ w :: (trivia ++ opener :: rest))) = head ++ rest' := by
  obtain ⟨trivia', opener', rest', hopen, htrivia', ho'⟩ :
      ∃ trivia' opener' rest',
        openSetter config (as ++ w :: (trivia ++ opener :: rest))
          = as ++ w :: (trivia' ++ [opener']) ++ rest' ∧
        (∀ t ∈ trivia', t.isTrivia = true) ∧ Bracket.round.opens opener' = true :=
    exists_openSetter_cut has hw htrivia ho
  -- The edit of the getter leaves the setter in front of it alone.
  have hfront : ∀ t ∈ as ++ w :: (trivia' ++ [opener']), t.is .identifier "get" = false := by
    have hother : ∀ t, precedesAccessor t = true → t.is .identifier "get" = false :=
      fun t ht => is_eq_false_of_precedesAccessor ht (by decide)
    simp only [List.forall_mem_append, List.forall_mem_cons]
    refine ⟨fun t ht => hother t (has t ht), ?_, fun t ht => ?_, ?_, nofun⟩
    · simp [Token.is, (Token.is_iff.1 hw).2]
    · exact hother t (by simp [precedesAccessor, htrivia' t ht])
    · simp [Token.is, (Token.is_iff.1 ho').1]
  obtain ⟨more, hmore⟩ := openGetter_append hfront rest'
  have hword : isAccessorWord w = true := by rw [isAccessorWord, hw, Bool.or_true]
  exact ⟨_, more, .intro has hword htrivia' ho', by rw [hopen, hmore]⟩

end Edits

/-! ### Behind the type -/

/-- An accessor with a body keeps what its body starts with when the closing brace goes. -/
theorem exists_unclosed {p : PropertyBody} {settable : Bool} {before after : List Token}
    (hc : Bracket.curly.closes p.enclosed.close = true) (hf : p.form = .accessors settable)
    (hinside : p.enclosed.inside = before ++ w :: after)
    (hbefore : ∀ t ∈ before, precedesAccessor t = true) (hw : isAccessorWord w = true) :
    ∃ trivia opener more,
      unclosed p.enclosed.inside p.enclosed.tail = before ++ w :: (trivia ++ opener :: more) ∧
      (∀ t ∈ trivia, t.isTrivia = true) ∧
      (Bracket.round.opens opener = true ∨ Bracket.curly.opens opener = true) := by
  obtain ⟨name, hmem, hname, hword⟩ : ∃ name, name ∈ ["get", "set"] ∧ name ∉ accessorModifiers ∧
      w.is .identifier name = true := by
    rw [isAccessorWord, Bool.or_eq_true] at hw
    rcases hw with hget | hset
    · exact ⟨"get", by decide, by decide, hget⟩
    · exact ⟨"set", by decide, by decide, hset⟩
  have hfind : p.accessor? name = some ⟨before, w, after⟩ := by
    rw [PropertyBody.accessor?, hinside, accessor?_cut hbefore hname hword]
  have hbody : startsBody (after ++ p.enclosed.close :: p.enclosed.tail) = true :=
    hasBody_of_form hf hmem hfind
  obtain ⟨trivia, opener, rest, rfl, htrivia, ho⟩ := exists_of_startsBody hbody hc
  have hopener : opener.isTrivia = false := ho.elim isTrivia_of_opens isTrivia_of_opens
  simp only [Token.isTrivia, Token.isSpacing, Bool.or_eq_false_iff] at hopener
  obtain ⟨more, hmore⟩ := unclosed_append_cons hopener.1.1 hopener.1.2 (before ++ w :: trivia)
    rest p.enclosed.tail
  refine ⟨trivia, opener, more, ?_, htrivia, ho⟩
  have hwhole : ∀ us, before ++ w :: (trivia ++ opener :: us)
      = before ++ w :: trivia ++ opener :: us := by simp
  rw [hinside, hwhole, hmore, hwhole]

/-- **What stands behind the type** of a property that starts with an accessor, once its braces are
    gone: the start of the accessor, with a parenthesis whether it had one before or not. -/
theorem exists_withoutBraces {p : PropertyBody} {settable : Bool}
    (hc : Bracket.curly.closes p.enclosed.close = true) (hf : p.form = .accessors settable)
    (hs : p.startsWithAccessor = true) :
    ∃ head rest, AccessorHead head ∧
      p.withoutBraces config = dropEndIf Token.isWhitespace p.lead ++ (head ++ rest) := by
  have hsplit :=
    List.takeWhile_append_dropWhile (p := precedesAccessor) (l := p.enclosed.inside)
  have hbefore : ∀ t ∈ p.enclosed.inside.takeWhile precedesAccessor, precedesAccessor t = true :=
    fun t => of_mem_takeWhile
  rw [PropertyBody.startsWithAccessor] at hs
  obtain ⟨w, hw, hword⟩ := (Option.any_eq_true _ _).1 hs
  obtain ⟨after, hafter⟩ := List.head?_eq_some_iff.1 hw
  rw [hafter] at hsplit
  obtain ⟨trivia, opener, more, hunclosed, htrivia, ho⟩ :=
    exists_unclosed hc hf hsplit.symm hbefore hword
  obtain ⟨head, rest, hhead, hopen⟩ : ∃ head rest, AccessorHead head ∧
      openGetter (openSetter config (unclosed p.enclosed.inside p.enclosed.tail))
        = head ++ rest := by
    rw [hunclosed]
    rw [isAccessorWord, Bool.or_eq_true] at hword
    rcases hword with hget | hset
    · exact exists_head_of_getter hbefore hget _
    · exact exists_head_of_setter hbefore hset htrivia ho
  exact ⟨head, rest ++ p.enclosed.tail, hhead, by simp [PropertyBody.withoutBraces, hopen]⟩

end Kotlinize
