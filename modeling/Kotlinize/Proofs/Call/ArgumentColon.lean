import Kotlinize.Proofs.Call.ColonRole
import Kotlinize.Proofs.Indices
import Kotlinize.Token.Edit

namespace Kotlinize

/-!
# Call-site colons, all at once

The pass guesses the role of a colon from a text whose earlier colons it has already replaced.
This file says what it does in terms of the untouched text alone: it is the same as replacing at
once all colons that are a call's there.

* `isArgumentColon` — whether a call-site colon stands at an index of a text.
* `argumentGap`, `argumentSlot`, `renamed` — the text with every such colon replaced.
* `argumentPlace` — where a token of the text stands afterwards.
* `ofPreceding_renamed` — the replaced colons change no role behind them.
* `nameArgumentsAfter_eq` — the pass, from any colon on, carries on with the replacement.
* `nameArguments_eq_renamed` — what the pass does to a whole text, and that it does it once.
-/

section

variable (config : Config) (ts : List Token)

/-- Whether the token at an index is a colon of a call, as the text shows it. -/
def isArgumentColon (i : Nat) : Bool :=
  ts[i]?.any isColon && (colonRole config ts i).isCallSite

/-- What stands for the token at an index. -/
def argumentToken (i : Nat) (t : Token) : Token :=
  if isArgumentColon config ts i then .symbol "=" else t

/-- The space in front of an index: none at the start of the text; else one if a call-site colon
    stands on either side, and whitespace on neither. -/
def argumentGap : Nat → List Token
  | 0 => []
  | i + 1 =>
    if (isArgumentColon config ts i || isArgumentColon config ts (i + 1))
        && needsSpaceAt ts i && needsSpaceAt ts (i + 1) then [.space]
    else []

/-- What stands for an index: the space in front of it, and its token if there is one. -/
def argumentSlot (i : Nat) : List Token :=
  argumentGap config ts i ++ (ts[i]?.map (argumentToken config ts i)).toList

/-- The tokens that stand for the first `k` indices. -/
def renamed (k : Nat) : List Token := (List.range k).flatMap (argumentSlot config ts)

/-- Where the token at an index stands afterwards. -/
def argumentPlace (i : Nat) : Nat :=
  (renamed config ts i).length + (argumentGap config ts i).length

end

variable {config : Config} {ts : List Token} {i : Nat}

/-! ### Gaps and slots -/

theorem argumentGap_eq (config : Config) (ts : List Token) (i : Nat) :
    argumentGap config ts i = [] ∨ argumentGap config ts i = [.space] := by
  cases i with
  | zero => exact Or.inl rfl
  | succ i =>
    rw [argumentGap]
    exact (Decidable.em _).elim (fun h => Or.inr (if_pos h)) fun h => Or.inl (if_neg h)

theorem renamed_succ (config : Config) (ts : List Token) (k : Nat) :
    renamed config ts (k + 1)
      = renamed config ts k ++ (argumentGap config ts k
        ++ (ts[k]?.map (argumentToken config ts k)).toList) := by
  simp [renamed, List.range_succ, argumentSlot]

theorem exists_of_isArgumentColon (h : isArgumentColon config ts i = true) :
    ∃ t, ts[i]? = some t ∧ isColon t = true := by
  rw [isArgumentColon, Bool.and_eq_true] at h
  exact (Option.any_eq_true _ _).1 h.1

/-- A colon is not whitespace. -/
theorem needsSpaceAt_of_isArgumentColon (h : isArgumentColon config ts i = true) :
    needsSpaceAt ts i = true := by
  obtain ⟨t, ht, hc⟩ := exists_of_isArgumentColon h
  rw [isColon, Token.is_iff] at hc
  simp [needsSpaceAt, ht, Token.isWhitespace, hc.1]

/-- Behind a call-site colon the gap depends on the next token alone. -/
theorem argumentGap_succ_of_isArgumentColon (h : isArgumentColon config ts i = true) :
    argumentGap config ts (i + 1) = gapBefore (ts.drop (i + 1)) := by
  rw [argumentGap, h, needsSpaceAt_of_isArgumentColon h, gapBefore, List.head?_drop, needsSpaceAt]
  cases ts[i + 1]?.any Token.isWhitespace <;> rfl

/-! ### The replaced colons change no role -/

/-- The tables of a configuration name none of the texts that the pass takes or writes. -/
def Config.SparesSeparators (config : Config) : Prop :=
  ∀ text ∈ [":", "=", " "], text ∉ config.declarationKeywords ∧ text ∉ config.closureOpeners

instance (config : Config) : Decidable config.SparesSeparators :=
  inferInstanceAs (Decidable (∀ text ∈ [":", "=", " "],
    text ∉ config.declarationKeywords ∧ text ∉ config.closureOpeners))

namespace Config.SparesSeparators

variable {text : String}

theorem isDeclarationKeyword (h : config.SparesSeparators) (ht : text ∈ [":", "=", " "]) :
    config.isDeclarationKeyword text = false := by
  simpa [Config.isDeclarationKeyword] using (h text ht).1

theorem isClosureOpener (h : config.SparesSeparators) (ht : text ∈ [":", "=", " "]) :
    config.isClosureOpener text = false := by
  simpa [Config.isClosureOpener] using (h text ht).2

/-- A space decides nothing, and no token behind it is any closer to what stands before it. -/
theorem ofPreceding_gap (h : config.SparesSeparators) (next? : Option Token) (ts : List Token)
    (i : Nat) (before : List Token) :
    ColonRole.ofPreceding config next? ((argumentGap config ts i).reverse ++ before)
      = ColonRole.ofPreceding config next? before := by
  rcases argumentGap_eq config ts i with hg | hg
  · rw [hg]
    rfl
  · have hspace : ColonRole.decidedBy? config next? .space = none :=
      ColonRole.decidedBy?_eq_none_iff.2 ⟨h.isDeclarationKeyword (by decide), rfl, rfl⟩
    rw [hg]
    exact ColonRole.ofPreceding_cons_of_undecided hspace before

/-- A colon and an equals sign are passed over alike. -/
theorem ofPreceding_separator (h : config.SparesSeparators) {t : Token}
    (hk : t.kind = .symbol) (ht : t.text ∈ [":", "="]) (next? : Option Token)
    (before : List Token) :
    ColonRole.ofPreceding config next? (t :: before)
      = ColonRole.ofPreceding config none before := by
  have htext : t.text ∈ [":", "=", " "] := List.mem_append_left [" "] ht
  have hmark : isCallMark t = false := by
    simp only [List.mem_cons, List.not_mem_nil, or_false] at ht
    rcases ht with ht | ht <;> simp [isCallMark, Token.is, hk, ht]
  have hundecided : ColonRole.decidedBy? config next? t = none :=
    ColonRole.decidedBy?_eq_none_iff.2
      ⟨h.isDeclarationKeyword htext, by simp [Bracket.opens, Token.is, hk], hmark⟩
  have htrivia : ¬ t.isTrivia = true := by simp [Token.isTrivia, Token.isSpacing, hk]
  rw [ColonRole.ofPreceding_cons_of_undecided hundecided, if_neg htrivia]
  -- No closure starts with either of them.
  exact ColonRole.ofPreceding_congr (by simp [h.isClosureOpener htext]) before

end Config.SparesSeparators

/-- **Replaced colons change no role.**  Whatever follows, the guess is the same behind the
    first `k` tokens and behind what stands for them. -/
theorem ofPreceding_renamed (h : config.SparesSeparators) (ts : List Token)
    (next? : Option Token) (k : Nat) :
    ColonRole.ofPreceding config next? (renamed config ts k).reverse
      = ColonRole.ofPreceding config next? (ts.take k).reverse := by
  induction k generalizing next? with
  | zero => rfl
  | succ k ih =>
    rw [renamed_succ, List.take_add_one, List.reverse_append, List.reverse_append,
      List.reverse_append]
    cases ht : ts[k]? with
    | none => simpa [h.ofPreceding_gap] using ih next?
    | some t =>
      simp only [Option.map_some, Option.toList_some, List.reverse_singleton, List.cons_append,
        List.nil_append]
      by_cases harg : isArgumentColon config ts k = true
      · -- The colon and the equals sign are passed over.
        obtain ⟨u, hu, hc⟩ := exists_of_isArgumentColon harg
        obtain rfl : t = u := Option.some.inj (ht.symm.trans hu)
        rw [isColon, Token.is_iff] at hc
        rw [argumentToken, if_pos harg, h.ofPreceding_separator rfl (by decide),
          h.ofPreceding_separator hc.1 (by simp [hc.2]), h.ofPreceding_gap, ih]
      · -- The token is the same on both sides.
        rw [argumentToken, if_neg harg, ColonRole.ofPreceding, ColonRole.ofPreceding,
          h.ofPreceding_gap, ih]

/-! ### From any colon on -/

/-- What the pass has written of the gap in front of an index: all of it behind a call-site
    colon, and nothing elsewhere. -/
def writtenGap (config : Config) (ts : List Token) : Nat → List Token
  | 0 => []
  | i + 1 => if isArgumentColon config ts i then argumentGap config ts (i + 1) else []

theorem writtenGap_of_not_isArgumentColon (h : isArgumentColon config ts i = false) :
    writtenGap config ts i = argumentGap config ts i := by
  cases i with
  | zero => rfl
  | succ i =>
    rw [writtenGap, argumentGap, h]
    cases isArgumentColon config ts i <;> rfl

/-- In front of a call-site colon the pass writes what is still missing of the gap. -/
theorem writtenGap_append_lead {written : List Token}
    (hw : written.reverse = renamed config ts i ++ writtenGap config ts i)
    (h : isArgumentColon config ts i = true) :
    writtenGap config ts i
        ++ (if written.head?.any (fun t => !t.isWhitespace) then [.space] else [])
      = argumentGap config ts i := by
  have hneeds := needsSpaceAt_of_isArgumentColon h
  have hhead : written.head? = (renamed config ts i ++ writtenGap config ts i).getLast? := by
    rw [← hw, List.getLast?_reverse]
  cases i with
  | zero =>
    rw [hhead]
    rfl
  | succ i =>
    by_cases hprev : isArgumentColon config ts i = true
    · -- Two colons in a row share the space between them.
      have hgap : argumentGap config ts (i + 1) = [.space] := by
        rw [argumentGap, hprev, needsSpaceAt_of_isArgumentColon hprev, hneeds]
        rfl
      rw [hhead, writtenGap, if_pos hprev, hgap, List.getLast?_append]
      rfl
    · obtain ⟨t, ht, -⟩ := exists_of_isArgumentColon h
      have hlt : i + 1 < ts.length := (List.getElem?_eq_some_iff.1 ht).1
      have hlast : (renamed config ts (i + 1) ++ writtenGap config ts (i + 1)).getLast?
          = ts[i]? := by
        rw [writtenGap, if_neg hprev, List.append_nil, renamed_succ,
          List.getElem?_eq_getElem (by omega)]
        simp [argumentToken, hprev]
      rw [hhead, hlast, writtenGap, if_neg hprev, argumentGap, h, hneeds, needsSpaceAt,
        List.getElem?_eq_getElem (by omega)]
      simp [hprev]

/-- What the pass sees of a colon agrees with the untouched text. -/
theorem isArgumentColon_eq (h : config.SparesSeparators) {written rest : List Token} {t : Token}
    (hw : written.reverse = renamed config ts i ++ writtenGap config ts i)
    (hrest : ts.drop i = t :: rest) :
    isArgumentColon config ts i
      = (isColon t && (ColonRole.ofPreceding config (some t) written).isCallSite) := by
  rw [isArgumentColon, getElem?_of_drop_eq_cons hrest, Option.any_some]
  by_cases hc : isColon t = true
  · have hnext : (significant (ts.drop i)).head? = some t := by
      rw [hrest, head?_significant_cons, if_neg]
      rw [isTrivia_of_is hc (by decide) (by decide) (by decide)]
      exact Bool.false_ne_true
    -- The written part of the gap is a space at most, and the rest is the replaced text.
    have hwritten : ColonRole.ofPreceding config (some t) written
        = ColonRole.ofPreceding config (some t) (renamed config ts i).reverse := by
      rw [← List.reverse_reverse written, hw, List.reverse_append]
      cases i with
      | zero => rfl
      | succ i =>
        rw [writtenGap]
        split
        · exact h.ofPreceding_gap (some t) ts (i + 1) _
        · rfl
    rw [colonRole, hnext, hwritten, ofPreceding_renamed h]
  · rw [Bool.not_eq_true] at hc
    rw [hc]
    rfl

/-- **From any colon on, the pass carries on with the replacement.**  Behind what stands for the
    first `i` tokens it leaves what stands for the others, and counts the colons among them. -/
theorem nameArgumentsAfter_eq (h : config.SparesSeparators) (written post : List Token)
    (hpost : ts.drop i = post) (hlen : i + post.length = ts.length)
    (hw : written.reverse = renamed config ts i ++ writtenGap config ts i) :
    written.reverse ++ (nameArgumentsAfter config written post).tokens
        = renamed config ts (ts.length + 1) ∧
      (nameArgumentsAfter config written post).count
        = (List.range' i post.length).countP (isArgumentColon config ts) := by
  fun_induction nameArgumentsAfter config written post generalizing i with
  | case1 written =>
    have hi : i = ts.length := by simpa using hlen
    have hnone : isArgumentColon config ts i = false := by
      rw [isArgumentColon, List.getElem?_eq_none (by omega)]
      rfl
    refine ⟨?_, rfl⟩
    rw [Edited.tokens_nil, List.append_nil, hw, writtenGap_of_not_isArgumentColon hnone, ← hi,
      renamed_succ, List.getElem?_eq_none (by omega)]
    simp
  | case2 written t post hc sign =>
    rename_i ih
    have harg : isArgumentColon config ts i = true := by
      rw [isArgumentColon_eq h hw hpost, hc]
    have hpost' : ts.drop (i + 1) = post := by rw [← List.tail_drop, hpost, List.tail_cons]
    -- The sign is the replaced colon between what is missing of its two gaps.
    have hw' : (sign.reverse ++ written).reverse
        = renamed config ts (i + 1) ++ writtenGap config ts (i + 1) := by
      have hlead := writtenGap_append_lead hw harg
      rw [List.reverse_append, List.reverse_reverse, hw, renamed_succ, ← hlead,
        getElem?_of_drop_eq_cons hpost, writtenGap, if_pos harg,
        argumentGap_succ_of_isArgumentColon harg, hpost']
      simp [sign, equalsSign, argumentToken, harg]
    have hrun := ih hpost' (by simp only [List.length_cons] at hlen; omega) hw'
    rw [List.reverse_append, List.reverse_reverse, List.append_assoc] at hrun
    refine ⟨hrun.1, ?_⟩
    rw [Edited.count_counted, Edited.count_append, hrun.2, List.length_cons, List.range'_succ,
      List.countP_cons_of_pos harg, Nat.add_comm]
  | case3 written t post hc ih =>
    have harg : isArgumentColon config ts i = false := by
      rw [isArgumentColon_eq h hw hpost]
      exact Bool.eq_false_iff.2 hc
    have hpost' : ts.drop (i + 1) = post := by rw [← List.tail_drop, hpost, List.tail_cons]
    have hw' : (t :: written).reverse
        = renamed config ts (i + 1) ++ writtenGap config ts (i + 1) := by
      rw [List.reverse_cons, hw, writtenGap_of_not_isArgumentColon harg, renamed_succ,
        getElem?_of_drop_eq_cons hpost]
      simp [writtenGap, argumentToken, harg]
    have hrun := ih hpost' (by simp only [List.length_cons] at hlen; omega) hw'
    rw [List.reverse_cons, List.append_assoc] at hrun
    refine ⟨hrun.1, ?_⟩
    rw [Edited.count_cons, hrun.2, List.length_cons, List.range'_succ,
      List.countP_cons_of_neg (by simp [harg])]

/-- The pass replaces all call-site colons of a text at once. -/
theorem tokens_nameArguments (h : config.SparesSeparators) (ts : List Token) :
    (nameArguments config ts).tokens = renamed config ts (ts.length + 1) := by
  exact (nameArgumentsAfter_eq h [] ts rfl (Nat.zero_add ts.length) rfl).1

/-- The pass counts the call-site colons of a text. -/
theorem count_nameArguments (h : config.SparesSeparators) (ts : List Token) :
    (nameArguments config ts).count
      = (List.range ts.length).countP (isArgumentColon config ts) := by
  rw [List.range_eq_range']
  exact (nameArgumentsAfter_eq h [] ts rfl (Nat.zero_add ts.length) rfl).2

/-! ### A second run -/

theorem isColon_of_mem_equalsSign {written ts : List Token} {t : Token}
    (h : t ∈ equalsSign written ts) : isColon t = false := by
  have hmem : t = .space ∨ t = .symbol "=" := by
    unfold equalsSign at h
    rcases gapBefore_eq ts with hg | hg <;> rw [hg] at h <;> split at h <;> grind
  rcases hmem with rfl | rfl <;> decide

/-- Tokens without a colon are passed over. -/
theorem nameArgumentsAfter_append {as : List Token} (h : ∀ t ∈ as, isColon t = false)
    (written bs : List Token) :
    nameArgumentsAfter config written (as ++ bs)
      = (nameArgumentsAfter config (as.reverse ++ written) bs).append as := by
  induction as generalizing written with
  | nil => rfl
  | cons t as ih =>
    obtain ⟨ht, has⟩ := List.forall_mem_cons.1 h
    rw [List.cons_append, nameArgumentsAfter, if_neg (by simp [ht]), ih has]
    simp [Edited.append, Edited.cons]

/-- What the pass has left, it leaves as it is. -/
theorem nameArgumentsAfter_again (written ts : List Token) :
    nameArgumentsAfter config written (nameArgumentsAfter config written ts).tokens
      = ⟨(nameArgumentsAfter config written ts).tokens, 0⟩ := by
  fun_induction nameArgumentsAfter config written ts with
  | case1 => rfl
  | case2 written t ts hc sign ih =>
    -- The second run comes to the rest behind the very tokens that the first one wrote.
    rw [Edited.tokens_counted, Edited.tokens_append,
      nameArgumentsAfter_append (fun u hu => isColon_of_mem_equalsSign hu), ih]
    rfl
  | case3 written t ts hc ih =>
    rw [Edited.tokens_cons, nameArgumentsAfter, if_neg hc, ih]
    rfl

/-! ### Places -/

theorem renamed_append (config : Config) (ts : List Token) {k m : Nat} (h : k ≤ m) :
    ∃ more, renamed config ts m = renamed config ts k ++ more := by
  obtain ⟨d, rfl⟩ := Nat.exists_eq_add_of_le h
  rw [renamed, List.range_add, List.flatMap_append]
  exact ⟨_, rfl⟩

/-- The text around what stands for an index. -/
theorem exists_renamed_eq (config : Config) {t : Token} (ht : ts[i]? = some t) :
    ∃ more, renamed config ts (ts.length + 1)
      = (renamed config ts i ++ argumentGap config ts i) ++ argumentToken config ts i t
        :: (argumentGap config ts (i + 1)
          ++ ((ts[i + 1]?.map (argumentToken config ts (i + 1))).toList ++ more)) := by
  have hlt := (List.getElem?_eq_some_iff.1 ht).1
  obtain ⟨more, hmore⟩ := renamed_append config ts (Nat.succ_le_succ (Nat.succ_le_of_lt hlt))
  refine ⟨more, ?_⟩
  rw [hmore, renamed_succ, renamed_succ, ht]
  simp

/-- An argument's colon is replaced by an equals sign, any other token stays. -/
theorem getElem?_argumentPlace {t : Token} (ht : ts[i]? = some t) :
    (renamed config ts (ts.length + 1))[argumentPlace config ts i]?
      = some (argumentToken config ts i t) := by
  obtain ⟨more, hmore⟩ := exists_renamed_eq config ht
  rw [hmore, argumentPlace, ← List.length_append, List.getElem?_append_right (Nat.le_refl _)]
  simp

/-- A token that is whitespace stays as it is. -/
theorem argumentToken_of_isWhitespace {t : Token} (ht : ts[i]? = some t)
    (hw : t.isWhitespace = true) : argumentToken config ts i t = t := by
  rw [argumentToken, if_neg]
  intro harg
  have hneeds := needsSpaceAt_of_isArgumentColon harg
  rw [needsSpaceAt, ht, Option.any_some, hw] at hneeds
  exact Bool.false_ne_true hneeds

/-- Whitespace follows an equals sign that the pass has written. -/
theorem isWhitespace_behind_argumentPlace (h : isArgumentColon config ts i = true) :
    (renamed config ts (ts.length + 1))[argumentPlace config ts i + 1]?.any Token.isWhitespace
      = true := by
  obtain ⟨t, ht, -⟩ := exists_of_isArgumentColon h
  obtain ⟨more, hmore⟩ := exists_renamed_eq config ht
  rw [hmore, argumentPlace, ← List.length_append, List.getElem?_append_right (by omega),
    Nat.add_sub_cancel_left, List.getElem?_cons_succ, argumentGap_succ_of_isArgumentColon h,
    gapBefore, List.head?_drop]
  cases hnext : ts[i + 1]?.any Token.isWhitespace with
  | false => rfl
  | true =>
    obtain ⟨u, hu, huw⟩ := (Option.any_eq_true _ _).1 hnext
    rw [hu, Option.map_some, argumentToken_of_isWhitespace hu huw]
    exact huw

/-- Whitespace precedes it too, unless it starts the text. -/
theorem isWhitespace_before_argumentPlace (h : isArgumentColon config ts i = true)
    (hi : i ≠ 0) :
    (renamed config ts (ts.length + 1))[argumentPlace config ts i - 1]?.any Token.isWhitespace
      = true := by
  obtain ⟨t, ht, -⟩ := exists_of_isArgumentColon h
  obtain ⟨more, hmore⟩ := exists_renamed_eq config ht
  obtain ⟨j, rfl⟩ := Nat.exists_eq_succ_of_ne_zero hi
  have hlast : (renamed config ts (j + 1) ++ argumentGap config ts (j + 1)).getLast?.any
      Token.isWhitespace = true := by
    rcases argumentGap_eq config ts (j + 1) with hg | hg
    · -- Without a space of its own the colon had whitespace in front of it.
      have hprev : ts[j]?.any Token.isWhitespace = true := by
        rw [argumentGap, h, needsSpaceAt_of_isArgumentColon h, needsSpaceAt] at hg
        simpa using hg
      obtain ⟨u, hu, huw⟩ := (Option.any_eq_true _ _).1 hprev
      rw [hg, List.append_nil, renamed_succ, hu, Option.map_some,
        argumentToken_of_isWhitespace hu huw]
      simpa using huw
    · rw [hg]
      simp
  have hne : renamed config ts (j + 1) ++ argumentGap config ts (j + 1) ≠ [] := by
    intro hnil
    rw [hnil] at hlast
    exact Bool.false_ne_true hlast
  have hpos := List.length_pos_iff.2 hne
  rw [hmore, argumentPlace, ← List.length_append,
    List.getElem?_append_left (Nat.sub_lt hpos Nat.one_pos), ← List.getLast?_eq_getElem?]
  exact hlast

/-! ### The pass -/

/-- **The pass replaces all call-site colons at once.**  With tables that name neither a colon nor
    an equals sign nor a space, it writes for each token of a text the token itself, or an equals
    sign if the token is a colon of a call in the untouched text, and between two tokens a space if
    one of them is such a colon and neither is whitespace.  It counts those colons.  Whitespace
    stands on both sides of each equals sign, except in front of a text.  A second run finds
    nothing to do. -/
theorem nameArguments_eq_renamed (h : config.SparesSeparators) (ts : List Token) :
    (nameArguments config ts).tokens
        = (List.range (ts.length + 1)).flatMap (argumentSlot config ts) ∧
      (nameArguments config ts).count
        = (List.range ts.length).countP (isArgumentColon config ts) ∧
      (∀ i t, ts[i]? = some t → (nameArguments config ts).tokens[argumentPlace config ts i]?
        = some (if isArgumentColon config ts i then .symbol "=" else t)) ∧
      (∀ i, isArgumentColon config ts i = true →
        (nameArguments config ts).tokens[argumentPlace config ts i + 1]?.any Token.isWhitespace
            = true ∧
          (i ≠ 0 → (nameArguments config ts).tokens[argumentPlace config ts i - 1]?.any
            Token.isWhitespace = true)) ∧
      nameArguments config (nameArguments config ts).tokens
        = ⟨(nameArguments config ts).tokens, 0⟩ := by
  have htokens := tokens_nameArguments h ts
  refine ⟨htokens, count_nameArguments h ts, fun i t ht => ?_, fun i hi => ?_,
    nameArgumentsAfter_again [] ts⟩
  · rw [htokens]
    exact getElem?_argumentPlace ht
  · rw [htokens]
    exact ⟨isWhitespace_behind_argumentPlace hi, isWhitespace_before_argumentPlace hi⟩

/-- Two colons in a row share the space between them, and whitespace that is there already is not
    doubled; a type's colon stays. -/
theorem nameArguments_eq_renamed_shared_space :
    Config.default.SparesSeparators ∧
      (nameArguments .default [.identifier "a", .symbol ":", .symbol ":", .whitespace "\t",
          .keyword "var", .symbol ":"]).tokens
        = [.identifier "a", .space, .symbol "=", .space, .symbol "=", .whitespace "\t",
          .keyword "var", .symbol ":"] := by
  have hspares : Config.default.SparesSeparators := by decide
  refine ⟨hspares, (nameArguments_eq_renamed hspares _).1.trans ?_⟩
  decide

end Kotlinize
