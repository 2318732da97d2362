import Kotlinize.Proofs.Indices
import Kotlinize.Proofs.LateInit.Marked

namespace Kotlinize

/-!
# Properties and their accessors by index

The pass over computed properties cuts the tokens behind a variable keyword at the braces of the
property and the tokens in between at the accessors.  This file says where in a whole text these
stand.

* `typeStart?`, `bodyOpener?` — the type of a variable and the brace behind it.
* `isAccessorAt`, `accessorIndex?` — the first accessor of a name directly between two braces.
* `hasBodyAt` — whether a body in braces follows an accessor.
* `PropertyPlaces`, `propertyPlaces?` — the places of a property that is to be changed.
* `propertyPlaces?_of_drop` — the pass cuts at these places.
-/

variable {ts rest : List Token} {name : String} {t : Token} {i k o : Nat}

/-! ### The body of a property -/

/-- The index where the type of the variable starts that the keyword at an index declares: a name
    and a colon stand in front of it, with any trivia around them. -/
def typeStart? (ts : List Token) (k : Nat) : Option Nat :=
  let nameIndex := skipTrivia ts (k + 1)
  let colonIndex := skipTrivia ts (nameIndex + 1)
  if ts[k]?.any isVariableKeyword && ts[nameIndex]?.any Token.isIdentifier
      && isAt ts colonIndex .symbol ":" then
    some (skipTrivia ts (colonIndex + 1))
  else none

/-- The index of the brace behind the type of the variable that the keyword at an index declares.
    The type has no line end in it. -/
def bodyOpener? (ts : List Token) (k : Nat) : Option Nat :=
  (typeStart? ts k).bind fun start =>
    let opener := skipTrivia ts (start + ((ts.drop start).takeWhile continuesType).length)
    if ts[start]?.any (isTypeToken computedTypeMarks) && ts[opener]?.any Bracket.curly.opens then
      some opener
    else none

/-! ### Accessors -/

/-- The number of brackets open at an index, of those behind the brace at index `o`. -/
def depthBehind (ts : List Token) (o i : Nat) : Nat :=
  ((ts.take i).drop (o + 1)).foldl Token.depthFrom 0

/-- Whether an accessor can start at an index: behind the brace at index `o` that opens the body,
    behind the body of another accessor, or behind a modifier. -/
def startsAccessor (ts : List Token) (o i : Nat) : Bool :=
  (previousSignificant? ts i).any fun before => before == o || ts[before]?.any startsAfter

/-- Whether the word of an accessor stands at an index, directly behind the brace at `o`. -/
def isAccessorAt (name : String) (ts : List Token) (o i : Nat) : Bool :=
  isAt ts i .identifier name && depthBehind ts o i == 0 && startsAccessor ts o i

/-- The index of the first accessor of a name between the braces at two indices. -/
def accessorIndex? (name : String) (ts : List Token) (o c : Nat) : Option Nat :=
  (List.range' (o + 1) (c - (o + 1))).find? (isAccessorAt name ts o)

/-- Whether a body in braces follows an index, perhaps behind a parameter list. -/
def hasBodyAt (ts : List Token) (i : Nat) : Bool :=
  let next := skipTrivia ts (i + 1)
  if ts[next]?.any Bracket.round.opens then
    (matchingClose? ts next).any fun closer =>
      ts[skipTrivia ts (closer + 1)]?.any Bracket.curly.opens
  else ts[next]?.any Bracket.curly.opens

/-! ### Properties that are changed -/

/-- The places of a property: its keyword, its braces, and the words of its accessors. -/
structure PropertyPlaces where
  keyword : Nat
  opener : Nat
  closer : Nat
  getter? : Option Nat
  setter? : Option Nat
deriving DecidableEq, Repr

/-- The places of the property that the keyword at an index declares, if the property is to be
    changed: its braces have partners, nothing observes it, and each accessor has a body. -/
def propertyPlaces? (ts : List Token) (k : Nat) : Option PropertyPlaces :=
  (bodyOpener? ts k).bind fun o =>
    (matchingClose? ts o).bind fun c =>
      if observers.any fun name => (accessorIndex? name ts o c).isSome then none
      else if ["get", "set"].any fun name =>
        (accessorIndex? name ts o c).any fun i => !hasBodyAt ts i then none
      else some ⟨k, o, c, accessorIndex? "get" ts o c, accessorIndex? "set" ts o c⟩

theorem isVariableKeyword_of_typeStart? {start : Nat} (h : typeStart? ts k = some start) :
    ts[k]?.any isVariableKeyword = true := by
  unfold typeStart? at h
  dsimp only at h
  split at h
  · rename_i hc
    rw [Bool.and_eq_true, Bool.and_eq_true] at hc
    exact hc.1.1
  · cases h

theorem isVariableKeyword_of_bodyOpener? (h : bodyOpener? ts k = some o) :
    ts[k]?.any isVariableKeyword = true := by
  obtain ⟨start, hstart, -⟩ := Option.bind_eq_some_iff.1 h
  exact isVariableKeyword_of_typeStart? hstart

/-! ### The body in a text that is cut -/

/-- The type of a variable starts behind the name and the colon, in the words of the pass. -/
theorem typeStart?_of_drop (h : ts.drop k = t :: rest) (hk : isVariableKeyword t = true) :
    typeStart? ts k = (typedName? rest).map fun n => k + 1 + n.lead.length := by
  have hrest := drop_succ_of_drop h
  have hname := drop_skipTrivia ts (k + 1)
  rw [hrest] at hname
  rw [typeStart?, getElem?_of_drop_eq_cons h, Option.any_some, hk, Bool.true_and]
  unfold typedName?
  cases hs : significant rest with
  | nil =>
    rw [hs] at hname
    simp [← List.head?_drop, hname]
  | cons name afterName =>
    rw [hs] at hname
    have hafterName := drop_succ_of_drop hname
    have hcolon := drop_skipTrivia ts (skipTrivia ts (k + 1) + 1)
    rw [hafterName] at hcolon
    dsimp only
    rw [isAt]
    cases hs' : significant afterName with
    | nil =>
      rw [hs'] at hcolon
      simp [← List.head?_drop, hcolon]
    | cons colon afterColon =>
      rw [hs'] at hcolon
      have hafterColon := drop_succ_of_drop hcolon
      dsimp only
      rw [getElem?_of_drop_eq_cons hname, getElem?_of_drop_eq_cons hcolon, Option.any_some,
        Option.any_some]
      split
      · rw [Option.map_some]
        rw [skipTrivia_of_drop hafterColon, skipTrivia_of_drop hafterName,
          skipTrivia_of_drop hrest]
        simp only [List.length_append, List.length_cons, Option.some.injEq]
        omega
      · rfl

/-- The opening brace of a property body and its partner, in the words of the pass. -/
theorem bodyOpener?_of_drop (h : ts.drop k = t :: rest) (hk : isVariableKeyword t = true) :
    ((bodyOpener? ts k).bind fun o => (matchingClose? ts o).map fun c => (o, c))
      = (propertyBody? rest).map fun p =>
        (k + 1 + p.lead.length, k + 1 + p.lead.length + 1 + p.enclosed.inside.length) := by
  rw [bodyOpener?, typeStart?_of_drop h hk, propertyBody?]
  cases hn : typedName? rest with
  | none => rfl
  | some n =>
    have htype : ts.drop (k + 1 + n.lead.length) = n.type := by
      rw [← List.drop_drop, drop_succ_of_drop h, ← whole_of_typedName? hn, TypedName.whole,
        List.drop_left]
    have hbehind : ts.drop (k + 1 + n.lead.length + (n.type.takeWhile continuesType).length)
        = n.type.dropWhile continuesType := by
      rw [← List.drop_drop, htype, drop_length_takeWhile]
    have hopener := drop_skipTrivia ts
      (k + 1 + n.lead.length + (n.type.takeWhile continuesType).length)
    rw [hbehind] at hopener
    rw [Option.map_some, Option.bind_some, htype, ← List.head?_drop, htype]
    dsimp only
    by_cases hfirst : n.type.head?.any (isTypeToken computedTypeMarks) = true
    · rw [hfirst, if_pos rfl, Bool.true_and]
      cases hs : significant (n.type.dropWhile continuesType) with
      | nil =>
        rw [hs] at hopener
        simp [← List.head?_drop, hopener]
      | cons opener more =>
        rw [hs] at hopener
        rw [getElem?_of_drop_eq_cons hopener, Option.any_some]
        dsimp only
        by_cases ho : Bracket.curly.opens opener = true
        · rw [if_pos ho, if_pos ho, Option.bind_some, matchingClose?_of_drop hopener ho,
            Option.map_map, Option.map_map, skipTrivia_of_drop hbehind]
          refine congrArg (Option.map · _) (funext fun e => ?_)
          simp only [Function.comp_apply, List.length_append, Prod.mk.injEq]
          omega
        · rw [if_neg ho, if_neg ho]
          rfl
    · rw [Bool.eq_false_iff.2 hfirst]
      rfl

/-! ### Accessors in a text that is cut -/

theorem depthBehind_succ (h : ts[i]? = some t) (hi : o < i) :
    depthBehind ts o (i + 1) = t.depthFrom (depthBehind ts o i) := by
  obtain ⟨hlt, -⟩ := List.getElem?_eq_some_iff.1 h
  rw [depthBehind, depthBehind, List.take_add_one, h, Option.toList_some,
    List.drop_append_of_le_length (by rw [List.length_take]; omega), List.foldl_append]
  rfl

theorem startsAccessor_opener (h : ts[o]? = some t) (ht : t.isTrivia = false) :
    startsAccessor ts o (o + 1) = true := by
  rw [startsAccessor, previousSignificant?_succ h, if_neg (by simp [ht]), Option.any_some,
    beq_self_eq_true, Bool.true_or]

theorem startsAccessor_succ (h : ts[i]? = some t) (hi : o < i) :
    startsAccessor ts o (i + 1) = if t.isTrivia then startsAccessor ts o i else startsAfter t := by
  rw [startsAccessor, previousSignificant?_succ h]
  split
  · rfl
  · rw [Option.any_some, h, Option.any_some, beq_eq_false_iff_ne.2 (by omega), Bool.false_or]

/-- The search for an accessor from an index on, in the words of the pass. -/
theorem find?_isAccessorAt {inside beyond : List Token} (h : ts.drop i = inside ++ beyond)
    (hi : o < i) :
    (List.range' i inside.length).find? (isAccessorAt name ts o)
      = (accessorAt? name (depthBehind ts o i) (startsAccessor ts o i) inside).map
        fun a => i + a.before.length := by
  induction inside generalizing i with
  | nil => rfl
  | cons t inside ih =>
    have hget := getElem?_of_drop_eq_cons h
    have hrest := ih (drop_succ_of_drop h) (Nat.lt_succ_of_lt hi)
    rw [depthBehind_succ hget hi, startsAccessor_succ hget hi] at hrest
    rw [List.length_cons, List.range'_succ, List.find?_cons, accessorAt?, isAccessorAt, isAt, hget,
      Option.any_some]
    split
    · rename_i hc
      rw [if_pos hc]
      rfl
    · rename_i hc
      rw [if_neg (by simp [hc]), hrest, Option.map_map]
      refine congrArg (Option.map · _) (funext fun a => ?_)
      simp only [Function.comp_apply, Accessor.cons, List.length_cons]
      omega

/-- The first accessor of a name behind the brace of a property, in the words of the pass. -/
theorem accessorIndex?_of_drop {inside beyond : List Token} {opener : Token}
    (h : ts.drop o = opener :: (inside ++ beyond)) (ho : opener.isTrivia = false) :
    accessorIndex? name ts o (o + 1 + inside.length)
      = (accessor? name inside).map fun a => o + 1 + a.before.length := by
  have hdepth : depthBehind ts o (o + 1) = 0 := by
    rw [depthBehind, List.drop_eq_nil_of_le (by rw [List.length_take]; omega), List.foldl_nil]
  rw [accessorIndex?, Nat.add_sub_cancel_left, find?_isAccessorAt (drop_succ_of_drop h) (by omega),
    hdepth, startsAccessor_opener (getElem?_of_drop_eq_cons h) ho, accessor?]

/-- Whether an accessor has a body, in the words of the pass. -/
theorem hasBodyAt_of_drop {after : List Token} (h : ts.drop i = t :: after) :
    hasBodyAt ts i = startsBody after := by
  have hnext := drop_skipTrivia ts (i + 1)
  rw [drop_succ_of_drop h] at hnext
  rw [hasBodyAt, ← List.head?_drop, hnext, startsBody]
  cases hs : significant after with
  | nil => rfl
  | cons next more =>
    rw [hs] at hnext
    dsimp only
    rw [List.head?_cons, Option.any_some]
    split
    · rename_i hround
      rw [matchingClose?_of_drop hnext hround]
      cases he : Bracket.round.enclosed? 0 more with
      | none => rfl
      | some e =>
        have hclose : ts.drop (skipTrivia ts (i + 1) + 1 + e.inside.length)
            = e.close :: e.tail := by
          rw [← List.drop_drop, drop_succ_of_drop hnext, ← Bracket.whole_of_enclosed? he,
            Enclosed.whole, List.drop_left]
        rw [Option.map_some, Option.any_some, ← List.head?_drop, drop_skipTrivia,
          drop_succ_of_drop hclose]
    · rfl

/-! ### Properties in a text that is cut -/

/-- The places of a property with a body behind the keyword at an index. -/
def PropertyBody.places (k : Nat) (p : PropertyBody) : PropertyPlaces where
  keyword := k
  opener := k + 1 + p.lead.length
  closer := k + 1 + p.lead.length + 1 + p.enclosed.inside.length
  getter? := (p.accessor? "get").map fun a => k + 1 + p.lead.length + 1 + a.before.length
  setter? := (p.accessor? "set").map fun a => k + 1 + p.lead.length + 1 + a.before.length

theorem isSome_setter?_places (k : Nat) (p : PropertyBody) :
    (p.places k).setter?.isSome = (p.accessor? "set").isSome :=
  Option.isSome_map

theorem whole_of_accessor? {p : PropertyBody} {a : Accessor} (h : p.accessor? name = some a) :
    a.whole = p.enclosed.inside :=
  (of_accessorAt? h).1

/-- What stands behind the keyword of a property from its opening brace on. -/
theorem drop_opener {p : PropertyBody} (h : ts.drop k = t :: rest)
    (hp : propertyBody? rest = some p) :
    ts.drop (k + 1 + p.lead.length) = p.opener :: (p.enclosed.inside ++ p.beyond) := by
  rw [← List.drop_drop, drop_succ_of_drop h, ← whole_of_propertyBody? hp, PropertyBody.whole,
    List.drop_left]
  rfl

/-- What stands from the word of an accessor on. -/
theorem drop_accessor {p : PropertyBody} {a : Accessor} (h : ts.drop k = t :: rest)
    (hp : propertyBody? rest = some p) (ha : p.accessor? name = some a) :
    ts.drop (k + 1 + p.lead.length + 1 + a.before.length) = a.word :: (a.after ++ p.beyond) := by
  rw [← List.drop_drop, drop_succ_of_drop (drop_opener h hp), ← whole_of_accessor? ha,
    Accessor.whole, List.append_assoc, List.drop_left, List.cons_append]

/-- **The pass cuts at the places of a property.**  Behind a variable keyword it changes the
    property that has such places, and no other. -/
theorem propertyPlaces?_of_drop (h : ts.drop k = t :: rest) (hk : isVariableKeyword t = true) :
    propertyPlaces? ts k
      = (propertyBody? rest).bind fun p => if p.form = .other then none else some (p.places k) := by
  have hbraces := bodyOpener?_of_drop h hk
  -- Both braces are found together.
  have hpair (find : Nat → Nat → Option PropertyPlaces) :
      ((bodyOpener? ts k).bind fun o => (matchingClose? ts o).bind fun c => find o c)
        = ((bodyOpener? ts k).bind fun o => (matchingClose? ts o).map fun c => (o, c)).bind
          fun braces => find braces.1 braces.2 := by
    simp only [Option.bind_assoc, Option.bind_map, Function.comp_def]
  rw [propertyPlaces?, hpair, hbraces]
  cases hp : propertyBody? rest with
  | none => rfl
  | some p =>
    have hopener := drop_opener h hp
    have hfind (name : String) : accessorIndex? name ts (k + 1 + p.lead.length)
          (k + 1 + p.lead.length + 1 + p.enclosed.inside.length)
        = (accessor? name p.enclosed.inside).map fun a =>
          k + 1 + p.lead.length + 1 + a.before.length :=
      accessorIndex?_of_drop hopener (isTrivia_of_opens (opens_of_propertyBody? hp))
    have hbody (name : String) :
        ((accessor? name p.enclosed.inside).map fun a =>
            k + 1 + p.lead.length + 1 + a.before.length).any (fun i => !hasBodyAt ts i)
          = (p.accessor? name).any fun a => !a.hasBody p.beyond := by
      rw [PropertyBody.accessor?]
      cases ha : accessor? name p.enclosed.inside with
      | none => rfl
      | some a =>
        rw [Option.map_some, Option.any_some, Option.any_some,
          hasBodyAt_of_drop (drop_accessor h hp ha), Accessor.hasBody]
    simp only [Option.map_some, Option.bind_some, hfind, hbody, Option.isSome_map]
    by_cases hobserved : observers.any fun name => (p.accessor? name).isSome
    · have hform : p.form = .other := by rw [PropertyBody.form, if_pos hobserved]
      rw [if_pos hform]
      exact if_pos hobserved
    · by_cases hbodies : ["get", "set"].any fun name =>
          (p.accessor? name).any fun a => !a.hasBody p.beyond
      · have hform : p.form = .other := by
          rw [PropertyBody.form, if_neg hobserved, if_pos hbodies]
        rw [if_pos hform, if_pos hbodies]
        exact ite_self _
      · have hform : p.form ≠ .other := by
          rw [PropertyBody.form, if_neg hobserved, if_neg hbodies]
          split <;> nofun
        rw [if_neg hform, if_neg hbodies]
        exact if_neg hobserved

end Kotlinize
