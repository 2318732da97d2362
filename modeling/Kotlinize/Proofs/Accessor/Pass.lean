import Kotlinize.Proofs.Accessor.Opened
import Kotlinize.Proofs.Accessor.Place

namespace Kotlinize

/-!
# Accessors behind the type, property by property

The pass over computed properties goes from one variable keyword to the next in the text as it is
by then.  This file says what it does at each of them by index: whether the property there is
changed, and what then stands for each of its tokens, trivia apart.

* `PropertyPlaces.slot`, `PropertyPlaces.slots` — what stands for a token of a property that is
  changed.
* `Suffixed` — one change of a text.
* `SuffixPass` — a pass from one keyword to the next.
* `suffixed_of_suffixed?` — what the pass does at a keyword is such a change.
* `suffixPass_suffixAccessors` — what the pass does to a whole text.
-/

variable {config : Config} {ts us rest : List Token} {t : Token} {i k : Nat}

/-! ### What stands for a token -/

namespace PropertyPlaces

/-- The parentheses behind the word of the setter: none if something other than a brace comes
    next. -/
def parameter (config : Config) (ts : List Token) (p : PropertyPlaces) : List Token :=
  if p.setter?.any fun s => ts[skipTrivia ts (s + 1)]?.any Bracket.curly.opens then
    parentheses [.identifier config.implicitSetterParameter]
  else []

/-- What stands for the token `t` at index `i` when a property is changed, trivia apart.  Without
    accessors, the word and the parentheses of a getter stand in front of the opening brace; with
    some, the braces go and parentheses stand behind the words. -/
def slot (config : Config) (ts : List Token) (p : PropertyPlaces) (i : Nat) (t : Token) :
    List Token :=
  if i = p.keyword then [if p.setter?.isSome then t else constantKeyword]
  else if p.getter?.isNone && p.setter?.isNone then
    if i = p.opener then .identifier "get" :: parentheses [] ++ [t] else [t]
  else if i = p.opener || i = p.closer then []
  else t :: addedAt p.getter? p.setter? (p.parameter config ts) i

/-- The text with the property at some places changed, apart from trivia. -/
def slots (config : Config) (ts : List Token) (p : PropertyPlaces) : List Token :=
  slotted (p.slot config ts) 0 ts

theorem slot_of_none {p : PropertyPlaces} (hkeyword : i ≠ p.keyword) (hgetter : p.getter? = none)
    (hsetter : p.setter? = none) (t : Token) :
    p.slot config ts i t
      = if i = p.opener then .identifier "get" :: parentheses [] ++ [t] else [t] := by
  rw [slot, if_neg hkeyword, hgetter, hsetter]
  rfl

theorem slot_of_some {p : PropertyPlaces} (hkeyword : i ≠ p.keyword)
    (hsome : (p.getter?.isNone && p.setter?.isNone) = false) (t : Token) :
    p.slot config ts i t
      = if i = p.opener || i = p.closer then []
        else t :: addedAt p.getter? p.setter? (p.parameter config ts) i := by
  rw [slot, if_neg hkeyword, hsome]
  rfl

theorem slot_eq_self {p : PropertyPlaces} (hkeyword : i ≠ p.keyword) (hopener : i ≠ p.opener)
    (hcloser : i ≠ p.closer) (hgetter : p.getter? ≠ some i) (hsetter : p.setter? ≠ some i)
    (t : Token) : p.slot config ts i t = [t] := by
  rw [slot, if_neg hkeyword]
  split
  · rfl
  · rw [if_neg (by simp [hopener, hcloser]), addedAt_eq_nil hgetter hsetter]

end PropertyPlaces

/-! ### The pass, step by step -/

/-- A text and the same with the property at some places changed: what stands in front of the
    keyword stays as it is, the keyword becomes that of a constant if there is no setter, and the
    tokens that carry syntax are those that stand for the ones before. -/
structure Suffixed (config : Config) (ts : List Token) (p : PropertyPlaces) (us : List Token) :
    Prop where
  front : us.take p.keyword = ts.take p.keyword
  keyword : us[p.keyword]?
    = ts[p.keyword]?.map fun t => if p.setter?.isSome then t else constantKeyword
  code : withoutTrivia us = withoutTrivia (p.slots config ts)

/-- A pass from an index on, the number of variable keywords that it comes to, and the outcome.
    At each keyword it changes the property, if that is to be changed, and goes on behind the
    keyword in what it has made; the count is the number of changes. -/
inductive SuffixPass (config : Config) : Nat → List Token → Nat → Edited → Prop where
  | done {k : Nat} {ts : List Token} (h : ts.length ≤ k) : SuffixPass config k ts 0 ⟨ts, 0⟩
  | other {k visits : Nat} {ts : List Token} {e : Edited} (hk : k < ts.length)
      (hv : ts[k]?.any isVariableKeyword = false) (hrest : SuffixPass config (k + 1) ts visits e) :
      SuffixPass config k ts visits e
  | keeps {k visits : Nat} {ts : List Token} {e : Edited}
      (hv : ts[k]?.any isVariableKeyword = true) (hp : propertyPlaces? ts k = none)
      (hrest : SuffixPass config (k + 1) ts visits e) : SuffixPass config k ts (visits + 1) e
  | changes {k visits : Nat} {ts us : List Token} {p : PropertyPlaces} {e : Edited}
      (hv : ts[k]?.any isVariableKeyword = true) (hp : propertyPlaces? ts k = some p)
      (hs : Suffixed config ts p us) (hrest : SuffixPass config (k + 1) us visits e) :
      SuffixPass config k ts (visits + 1) (e.counted 1)

/-! ### A property cut at its places -/

section Cut

variable {p : PropertyBody}

theorem places_lt (k : Nat) (p : PropertyBody) :
    (p.places k).keyword < (p.places k).opener ∧ (p.places k).opener < (p.places k).closer := by
  dsimp only [PropertyBody.places]
  omega

/-- The words of the accessors stand between the braces. -/
theorem between_braces {name : String} (h : ((p.accessor? name).map fun a =>
      k + 1 + p.lead.length + 1 + a.before.length) = some i) :
    (p.places k).opener < i ∧ i < (p.places k).closer := by
  obtain ⟨a, ha, rfl⟩ := Option.map_eq_some_iff.1 h
  have hlen := congrArg List.length (whole_of_accessor? ha)
  simp only [Accessor.whole, List.length_append, List.length_cons] at hlen
  dsimp only [PropertyBody.places]
  omega

/-- Outside the braces only the keyword changes. -/
theorem slot_outside (hkeyword : i ≠ k) (h : i < k + 1 + p.lead.length
      ∨ k + 1 + p.lead.length + 1 + p.enclosed.inside.length < i) (t : Token) :
    (p.places k).slot config ts i t = [t] := by
  have hbetween (name : String) : ((p.accessor? name).map fun a =>
      k + 1 + p.lead.length + 1 + a.before.length) ≠ some i := by
    intro ha
    have := between_braces ha
    dsimp only [PropertyBody.places] at this
    omega
  refine PropertyPlaces.slot_eq_self hkeyword ?_ ?_ (hbetween "get") (hbetween "set") t
  · dsimp only [PropertyBody.places]
    omega
  · dsimp only [PropertyBody.places]
    omega

/-- The text with a property changed, cut at the places of the property. -/
theorem slots_places (h : ts.drop k = t :: rest) (hp : propertyBody? rest = some p) :
    (p.places k).slots config ts
      = ts.take k ++ [if (p.accessor? "set").isSome then t else constantKeyword]
        ++ (p.lead ++ ((p.places k).slot config ts (p.places k).opener p.opener
          ++ (slotted ((p.places k).slot config ts) ((p.places k).opener + 1) p.enclosed.inside
            ++ ((p.places k).slot config ts (p.places k).closer p.enclosed.close
              ++ p.enclosed.tail)))) := by
  have hlt : k < ts.length := (List.getElem?_eq_some_iff.1 (getElem?_of_drop_eq_cons h)).1
  have hlen : (ts.take k).length = k := by
    rw [List.length_take]
    omega
  have hsplit : ts.take k ++ t :: (p.lead
      ++ p.opener :: (p.enclosed.inside ++ p.enclosed.close :: p.enclosed.tail)) = ts := by
    rw [← Enclosed.whole, ← PropertyBody.whole, whole_of_propertyBody? hp, ← h,
      List.take_append_drop]
  have hcut (slot : Nat → Token → List Token) : slotted slot 0 ts
      = slotted slot 0 (ts.take k) ++ (slot k t ++ (slotted slot (k + 1) p.lead
        ++ (slot (p.places k).opener p.opener
          ++ (slotted slot ((p.places k).opener + 1) p.enclosed.inside
            ++ (slot (p.places k).closer p.enclosed.close
              ++ slotted slot ((p.places k).closer + 1) p.enclosed.tail))))) := by
    conv => lhs; rw [← hsplit]
    simp only [slotted_append, slotted_cons, hlen, Nat.zero_add]
    rfl
  have hkeyword : (p.places k).slot config ts k t
      = [if (p.accessor? "set").isSome then t else constantKeyword] := by
    have hk : k = (p.places k).keyword := rfl
    rw [PropertyPlaces.slot, if_pos hk, isSome_setter?_places]
  have hfront : slotted ((p.places k).slot config ts) 0 (ts.take k) = ts.take k :=
    slotted_eq_self fun i _ hi => slot_outside (by omega) (by omega)
  have hlead : slotted ((p.places k).slot config ts) (k + 1) p.lead = p.lead :=
    slotted_eq_self fun i hi hlt => slot_outside (by omega) (by omega)
  have htail : slotted ((p.places k).slot config ts) ((p.places k).closer + 1) p.enclosed.tail
      = p.enclosed.tail :=
    slotted_eq_self fun i hi _ => slot_outside (by dsimp only [PropertyBody.places] at hi; omega)
      (by dsimp only [PropertyBody.places] at hi; omega)
  rw [PropertyPlaces.slots, hcut, hkeyword, hfront, hlead, htail, List.append_assoc]

/-! ### One change -/

theorem accessor?_of_getter (h : p.form = .getter) :
    p.accessor? "get" = none ∧ p.accessor? "set" = none := by
  unfold PropertyBody.form at h
  split at h
  · cases h
  · split at h
    · cases h
    · split at h
      · rename_i hnone
        simpa using hnone
      · cases h

theorem accessor?_of_accessors {settable : Bool} (h : p.form = .accessors settable) :
    settable = (p.accessor? "set").isSome ∧
      ((p.accessor? "get").isNone && (p.accessor? "set").isNone) = false := by
  unfold PropertyBody.form at h
  split at h
  · cases h
  · split at h
    · cases h
    · split at h
      · cases h
      · rename_i hsome
        cases h
        exact ⟨rfl, Bool.eq_false_iff.2 hsome⟩

/-- A property without accessors gets the word and the parentheses of a getter in front of its
    brace. -/
theorem withoutTrivia_withGetter (h : ts.drop k = t :: rest) (hp : propertyBody? rest = some p)
    (hf : p.form = .getter) :
    withoutTrivia (ts.take k ++ [constantKeyword] ++ p.withGetter)
      = withoutTrivia ((p.places k).slots config ts) := by
  obtain ⟨hget, hset⟩ := accessor?_of_getter hf
  obtain ⟨hkeyword, hbraces⟩ := places_lt k p
  have hslot (i : Nat) (hi : (p.places k).keyword < i) (t : Token) :
      (p.places k).slot config ts i t
        = if i = (p.places k).opener then .identifier "get" :: parentheses [] ++ [t]
          else [t] :=
    PropertyPlaces.slot_of_none (Nat.ne_of_gt hi) (by rw [PropertyBody.places, hget]; rfl)
      (by rw [PropertyBody.places, hset]; rfl) t
  have hopener := (hslot _ hkeyword p.opener).trans (if_pos rfl)
  have hinside : slotted ((p.places k).slot config ts) ((p.places k).opener + 1) p.enclosed.inside
      = p.enclosed.inside := by
    refine slotted_eq_self fun i hi _ t => ?_
    rw [hslot i (by omega), if_neg (by omega)]
  have hcloser := (hslot _ (hkeyword.trans hbraces) p.enclosed.close).trans
    (if_neg (Nat.ne_of_gt hbraces))
  have hgetter : p.withGetter = p.lead ++ (gapAfter p.lead ++ (.identifier "get" :: parentheses []
      ++ .space :: ([p.opener] ++ (p.enclosed.inside ++ ([p.enclosed.close]
        ++ p.enclosed.tail))))) := by
    simp [PropertyBody.withGetter, Enclosed.whole]
  rw [slots_places h hp, hset, hopener, hinside, hcloser, hgetter]
  simp only [withoutTrivia_append, withoutTrivia_gapAfter, withoutTrivia_space_cons,
    List.nil_append, List.append_assoc]
  rfl

/-- The parentheses for the setter, in the words of the pass. -/
theorem parameter_places (h : ts.drop k = t :: rest) (hp : propertyBody? rest = some p) :
    (p.places k).parameter config ts
      = (p.accessor? "set").elim [] fun a => setterParameter config a.after := by
  cases ha : p.accessor? "set" with
  | none =>
    have hsetter : (p.places k).setter? = none := by rw [PropertyBody.places, ha]; rfl
    rw [PropertyPlaces.parameter, hsetter]
    rfl
  | some a =>
    have hsetter : (p.places k).setter? = some (k + 1 + p.lead.length + 1 + a.before.length) := by
      rw [PropertyBody.places, ha]
      rfl
    have hword := drop_accessor h hp ha
    have hcloses := closes_of_propertyBody? hp
    have hbeyond : significant p.beyond = p.beyond :=
      List.dropWhile_cons_of_neg (by simp [isTrivia_of_closes hcloses])
    have hnone : (significant p.beyond).head?.any Bracket.curly.opens = false := by
      rw [hbeyond]
      exact Bool.eq_false_iff.2 fun ho => by
        have := Bracket.not_closes_of_opens ho
        rw [hcloses] at this
        cases this
    rw [PropertyPlaces.parameter, hsetter, Option.any_some, ← List.head?_drop, drop_skipTrivia,
      drop_succ_of_drop hword, opens_significant_append hnone]
    rfl

/-- A property with accessors loses its braces. -/
theorem withoutTrivia_withoutBraces {settable : Bool} (h : ts.drop k = t :: rest)
    (hp : propertyBody? rest = some p) (hf : p.form = .accessors settable) :
    withoutTrivia (ts.take k ++ [if settable then t else constantKeyword] ++ p.withoutBraces config)
      = withoutTrivia ((p.places k).slots config ts) := by
  obtain ⟨rfl, hsome⟩ := accessor?_of_accessors hf
  obtain ⟨hkeyword, hbraces⟩ := places_lt k p
  have hslot (i : Nat) (hi : (p.places k).keyword < i) (t : Token) :
      (p.places k).slot config ts i t
        = if i = (p.places k).opener || i = (p.places k).closer then []
          else t :: addedAt (p.places k).getter? (p.places k).setter?
            ((p.places k).parameter config ts) i :=
    PropertyPlaces.slot_of_some (Nat.ne_of_gt hi) (by simpa [PropertyBody.places] using hsome) t
  have hopener := (hslot _ hkeyword p.opener).trans (if_pos (by simp))
  have hinside : slotted ((p.places k).slot config ts) ((p.places k).opener + 1) p.enclosed.inside
      = withAdded (addedAt (p.places k).getter? (p.places k).setter?
          ((p.places k).parameter config ts)) ((p.places k).opener + 1) p.enclosed.inside := by
    refine slotted_congr fun i hi hlt t => ?_
    have hcloser : (p.places k).closer = (p.places k).opener + 1 + p.enclosed.inside.length := rfl
    rw [hslot i (by omega), if_neg (by simp; omega)]
  have hcloser := (hslot _ (hkeyword.trans hbraces) p.enclosed.close).trans (if_pos (by simp))
  have hlead : withoutTrivia (dropEndIf Token.isWhitespace p.lead) = withoutTrivia p.lead :=
    skipsSpacing_code.filter_dropEndIf (fun _ => isSpacing_of_isWhitespace) p.lead
  have hopened := withoutTrivia_opened config ((p.places k).opener + 1) p.enclosed.inside
    p.enclosed.tail
  rw [slots_places h hp, hopener, hinside, hcloser, parameter_places h hp,
    PropertyBody.withoutBraces]
  simp only [withoutTrivia_append, List.nil_append, hlead, hopened]
  rfl

/-- **One change.**  What the pass makes of a property is the text with the property at its places
    changed. -/
theorem suffixed_of_suffixed? {keyword : Token} {edited : List Token} (h : ts.drop k = t :: rest)
    (hk : isVariableKeyword t = true) (hs : suffixed? config t rest = some (keyword, edited)) :
    ∃ q, propertyPlaces? ts k = some q ∧ Suffixed config ts q (ts.take k ++ keyword :: edited) := by
  obtain ⟨p, hp, hcase⟩ := suffixed?_eq_some hs
  have hget := getElem?_of_drop_eq_cons h
  have hlen : (ts.take k).length = k := by
    rw [List.length_take]
    have := (List.getElem?_eq_some_iff.1 hget).1
    omega
  obtain ⟨hform, hkeyword, hcode⟩ : p.form ≠ .other ∧
      keyword = (if (p.accessor? "set").isSome then t else constantKeyword) ∧
      withoutTrivia (ts.take k ++ [keyword] ++ edited)
        = withoutTrivia ((p.places k).slots config ts) := by
    rcases hcase with ⟨hf, rfl, rfl⟩ | ⟨settable, hf, rfl, rfl⟩
    · refine ⟨by rw [hf]; nofun, ?_, withoutTrivia_withGetter h hp hf⟩
      rw [(accessor?_of_getter hf).2]
      rfl
    · refine ⟨by rw [hf]; nofun, ?_, withoutTrivia_withoutBraces h hp hf⟩
      rw [(accessor?_of_accessors hf).1]
  refine ⟨p.places k, ?_, ?_, ?_, ?_⟩
  · rw [propertyPlaces?_of_drop h hk, hp, Option.bind_some, if_neg hform]
  · exact List.take_left' hlen
  · have hat : (ts.take k ++ keyword :: edited)[k]? = some keyword := by
      rw [List.getElem?_append_right (by omega), hlen, Nat.sub_self, List.getElem?_cons_zero]
    have hplace : (p.places k).keyword = k := rfl
    rw [hplace, hat, hget, hkeyword, Option.map_some, isSome_setter?_places]
  · rw [List.append_cons]
    exact hcode

/-- A property that the pass leaves alone is not to be changed. -/
theorem propertyPlaces?_of_suffixed?_eq_none (h : ts.drop k = t :: rest)
    (hk : isVariableKeyword t = true) (hs : suffixed? config t rest = none) :
    propertyPlaces? ts k = none := by
  rw [propertyPlaces?_of_drop h hk]
  unfold suffixed? at hs
  split at hs
  · rename_i hp
    rw [hp, Option.bind_none]
  · rename_i p hp
    have hform : p.form = .other := by
      unfold PropertyBody.suffixed at hs
      split at hs
      · assumption
      · cases hs
      · cases hs
    rw [hp, Option.bind_some, if_pos hform]

end Cut

/-! ### The pass -/

theorem bystander_isVariableKeyword : Bystander isVariableKeyword where
  spacing := .of_kind <| by rintro t (h | h) <;> simp [isVariableKeyword, Token.is, h]
  identifier _ := rfl
  opener := by decide
  closer := by decide

theorem isVariableKeyword_of_opens {b : Bracket} (h : b.opens t = true) :
    isVariableKeyword t = false := by
  simp [isVariableKeyword, Token.is, (Token.is_iff.1 h).1]

theorem isVariableKeyword_of_closes {b : Bracket} (h : b.closes t = true) :
    isVariableKeyword t = false := by
  simp [isVariableKeyword, Token.is, (Token.is_iff.1 h).1]

/-- A change keeps the variable keywords behind its own. -/
theorem variableCount_of_suffixed? {keyword : Token} {edited : List Token}
    (hs : suffixed? config t rest = some (keyword, edited)) :
    variableCount edited = variableCount rest := by
  obtain ⟨p, hp, hcase⟩ := suffixed?_eq_some hs
  have hwhole := whole_of_propertyBody? hp
  rw [variableCount, variableCount, List.countP_eq_length_filter, List.countP_eq_length_filter,
    ← hwhole]
  rcases hcase with ⟨-, -, rfl⟩ | ⟨settable, -, -, rfl⟩
  · rw [bystander_isVariableKeyword.filter_withGetter]
  · have hopener := isVariableKeyword_of_opens (opens_of_propertyBody? hp)
    have hclose := isVariableKeyword_of_closes (closes_of_propertyBody? hp)
    rw [bystander_isVariableKeyword.filter_withoutBraces]
    simp [PropertyBody.whole, Enclosed.whole, hopener, hclose]

/-- A pass that goes on behind a token, as a pass over the text with that token. -/
theorem SuffixPass.of_append_singleton {before : List Token} {visits : Nat} {e : Edited}
    (h : SuffixPass config (before ++ [t]).length (before ++ [t] ++ rest) visits
      (e.append (before ++ [t]))) :
    SuffixPass config (before.length + 1) (before ++ t :: rest) visits
      ((e.cons t).append before) := by
  rwa [List.length_append, List.length_singleton, List.append_assoc, List.singleton_append,
    ← Edited.append_cons] at h

/-- **The pass carries on.**  From any place on, it is a pass from one keyword to the next. -/
theorem suffixPass_append (config : Config) (before ts : List Token) :
    SuffixPass config before.length (before ++ ts) (variableCount ts)
      ((suffixAccessors config ts).append before) := by
  fun_induction suffixAccessors config ts generalizing before with
  | case1 => exact .done (by simp)
  | case2 t ts hv keyword edited hs ih =>
    have hdrop : (before ++ t :: ts).drop before.length = t :: ts := List.drop_left
    obtain ⟨p, hp, hchange⟩ := suffixed_of_suffixed? hdrop hv hs
    have hrest := (ih (before ++ [keyword])).of_append_singleton
    rw [List.take_left] at hchange
    rw [variableCount_of_suffixed? hs] at hrest
    rw [variableCount_cons, if_pos hv]
    exact .changes (by rw [getElem?_of_drop_eq_cons hdrop, Option.any_some, hv]) hp hchange hrest
  | case3 t ts hv hs ih =>
    have hdrop : (before ++ t :: ts).drop before.length = t :: ts := List.drop_left
    rw [variableCount_cons, if_pos hv]
    exact .keeps (by rw [getElem?_of_drop_eq_cons hdrop, Option.any_some, hv])
      (propertyPlaces?_of_suffixed?_eq_none hdrop hv hs)
      (ih (before ++ [t])).of_append_singleton
  | case4 t ts hv ih =>
    have hdrop : (before ++ t :: ts).drop before.length = t :: ts := List.drop_left
    have hother : ((before ++ t :: ts)[before.length]?.any isVariableKeyword) = false := by
      rw [getElem?_of_drop_eq_cons hdrop, Option.any_some, Bool.eq_false_iff.2 hv]
    rw [variableCount_cons, if_neg hv]
    exact .other (by simp) hother (ih (before ++ [t])).of_append_singleton

/-- **The pass over computed properties.**  It comes to every variable keyword once, from the front
    on, in the text as it is by then, changes the properties that are to be changed, and counts
    them. -/
theorem suffixPass_suffixAccessors (config : Config) (ts : List Token) :
    SuffixPass config 0 ts (variableCount ts) (suffixAccessors config ts) :=
  suffixPass_append config [] ts

/-- The tokens of a property whose setter stands in front of its getter. -/
def setterFirst : List Token :=
  [.keyword "var", .space, .identifier "a", .symbol ":", .space, .identifier "A", .space,
    Bracket.curly.openToken, .identifier "set", Bracket.curly.openToken, Bracket.curly.closeToken,
    .identifier "get", Bracket.curly.openToken, Bracket.curly.closeToken,
    Bracket.curly.closeToken]

example : (propertyPlaces? setterFirst 0).map (fun p =>
      (withoutTrivia (p.slots .default setterFirst)).map Token.text)
    = some ["var", "a", ":", "A", "set", "(", "newValue", ")", "\x7b", "\x7d", "get", "(", ")",
      "\x7b", "\x7d"] := by
  decide

end Kotlinize
