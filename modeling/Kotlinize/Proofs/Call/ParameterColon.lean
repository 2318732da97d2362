import Kotlinize.Proofs.Call.ArgumentColon
import Kotlinize.Function.ParameterList
import Kotlinize.Source.Tokenize

namespace Kotlinize

/-!
# The colons of parameters

The colon between the name and the type of a parameter should outlast the pass over call-site
colons, since the later passes look for it.  It does so unless a point or an arrow stands between
the function keyword and the colon, behind the last token that would tell a declaration.

* `typeColon?` — the first colon of a parameter outside its brackets.
* `parameterColons` — where the parameters of a function have theirs.
* `isColon_argumentPlace_iff` — which of these colons outlast the pass.
* `not_isColon_behind_member_type` — a type with a point costs the next parameter its colon.
-/

/-! ### Where the colons stand -/

/-- The offset of the first colon at depth 0, when `depth` brackets are open. -/
def typeColon? (depth : Nat) : List Token → Option Nat
  | [] => none
  | t :: ts =>
    if depth == 0 && isColon t then some 0
    else (typeColon? (t.depthFrom depth) ts).map (· + 1)

/-- The indices of the first colons of some parameters, one comma between any two of them, the
first of which starts at an index. -/
def typeColons (start : Nat) : List (List Token) → List Nat
  | [] => []
  | parameter :: later =>
    ((typeColon? 0 parameter).map (start + ·)).toList
      ++ typeColons (start + parameter.length + 1) later

/-- The indices of the colons that belong to the parameters of the function keyword at an
index: none if no function keyword with a parameter list stands there. -/
def parameterColons (ts : List Token) (f : Nat) : List Nat :=
  match ts.drop f with
  | [] => []
  | keyword :: rest =>
    if isFunctionKeyword keyword then
      match parameterList? rest with
      | none => []
      | some p =>
        typeColons (f + 1 + p.name.length + 1) (splitParameters 0 p.enclosed.inside).toList
    else []

theorem isColon_of_typeColon? {depth k : Nat} {ts : List Token}
    (h : typeColon? depth ts = some k) : ts[k]?.any isColon = true := by
  fun_induction typeColon? depth ts generalizing k with
  | case1 => cases h
  | case2 depth t ts hc =>
    cases h
    rw [Bool.and_eq_true] at hc
    exact hc.2
  | case3 depth t ts _ ih =>
    obtain ⟨k', hk', rfl⟩ := Option.map_eq_some_iff.1 h
    exact ih hk'

/-- The colons of the later parameters stand behind the first comma. -/
theorem isColon_of_mem_typeColons_later {start i : Nat} {later : List (Token × List Token)}
    (h : i ∈ typeColons start (later.map Prod.snd)) :
    ∃ k, i = start + k ∧ (later.flatMap fun p => p.1 :: p.2)[k + 1]?.any isColon = true := by
  induction later generalizing start with
  | nil => cases h
  | cons p later ih =>
    rw [List.map_cons, typeColons, List.mem_append, Option.mem_toList,
      Option.map_eq_some_iff] at h
    rw [List.flatMap_cons]
    rcases h with ⟨k, hk, rfl⟩ | h
    · have hcolon := isColon_of_typeColon? hk
      obtain ⟨t, ht, -⟩ := (Option.any_eq_true _ _).1 hcolon
      have hlt := (List.getElem?_eq_some_iff.1 ht).1
      refine ⟨k, rfl, ?_⟩
      rw [List.cons_append, List.getElem?_cons_succ, List.getElem?_append_left hlt]
      exact hcolon
    · obtain ⟨k, rfl, hcolon⟩ := ih h
      refine ⟨p.2.length + 1 + k, by omega, ?_⟩
      rw [List.cons_append, List.getElem?_cons_succ, List.getElem?_append_right (by omega),
        show p.2.length + 1 + k - p.2.length = k + 1 by omega]
      exact hcolon

theorem isColon_of_mem_typeColons {start i : Nat} {ps : Parameters}
    (h : i ∈ typeColons start ps.toList) :
    ∃ k, i = start + k ∧ ps.whole[k]?.any isColon = true := by
  rw [Parameters.toList, typeColons, List.mem_append, Option.mem_toList,
    Option.map_eq_some_iff] at h
  rcases h with ⟨k, hk, rfl⟩ | h
  · have hcolon := isColon_of_typeColon? hk
    obtain ⟨t, ht, -⟩ := (Option.any_eq_true _ _).1 hcolon
    have hlt := (List.getElem?_eq_some_iff.1 ht).1
    refine ⟨k, rfl, ?_⟩
    rw [Parameters.whole, List.getElem?_append_left hlt]
    exact hcolon
  · obtain ⟨k, rfl, hcolon⟩ := isColon_of_mem_typeColons_later h
    refine ⟨ps.first.length + 1 + k, by omega, ?_⟩
    rw [Parameters.whole, List.getElem?_append_right (by omega),
      show ps.first.length + 1 + k - ps.first.length = k + 1 by omega]
    exact hcolon

/-- A colon of a parameter is a colon, somewhere behind the function keyword. -/
theorem of_mem_parameterColons {ts : List Token} {f i : Nat} (h : i ∈ parameterColons ts f) :
    ∃ keyword, ts[f]? = some keyword ∧ isFunctionKeyword keyword = true ∧ f < i ∧
      ts[i]?.any isColon = true := by
  unfold parameterColons at h
  split at h
  · cases h
  · rename_i keyword rest hdrop
    split at h
    · rename_i hk
      split at h
      · cases h
      · rename_i p hp
        obtain ⟨k, rfl, hcolon⟩ := isColon_of_mem_typeColons h
        rw [whole_splitParameters] at hcolon
        obtain ⟨t, ht, -⟩ := (Option.any_eq_true _ _).1 hcolon
        have hlt := (List.getElem?_eq_some_iff.1 ht).1
        refine ⟨keyword, getElem?_of_drop_eq_cons hdrop, hk, by omega, ?_⟩
        have hindex : ts[f + 1 + p.name.length + 1 + k]? = p.enclosed.inside[k]? := by
          rw [show f + 1 + p.name.length + 1 + k = f + (p.name.length + (k + 1) + 1) by omega,
            ← List.getElem?_drop, hdrop, List.getElem?_cons_succ, ← whole_of_parameterList? hp,
            ParameterList.whole, List.getElem?_append_right (by omega), Nat.add_sub_cancel_left,
            List.getElem?_cons_succ, Enclosed.whole, List.getElem?_append_left hlt]
        rw [hindex]
        exact hcolon
    · cases h

/-! ### Which of them stay -/

/-- A point and an arrow are no declaration keywords. -/
theorem decidesForCall_default (t : Token) : decidesForCall .default t = isCallMark t := by
  rw [decidesForCall]
  cases hm : isCallMark t with
  | false => rfl
  | true =>
    rw [isCallMark, Bool.or_eq_true, Token.is_iff, Token.is_iff] at hm
    rcases hm with hm | hm <;> rw [hm.2] <;> decide

/-- A colon behind a function keyword is a call's if the last token between them that decides is
    a point or an arrow. -/
theorem isCallSite_colonRole_behind_function {ts : List Token} {keyword : Token} {f i : Nat}
    (hf : ts[f]? = some keyword) (hk : isFunctionKeyword keyword = true) (hfi : f < i) :
    (colonRole .default ts i).isCallSite
      = (lastDecision? .default (ts.drop i) ((ts.take i).drop (f + 1))).any isCallMark := by
  have hsplit : (ts.take i).reverse
      = ((ts.take i).drop (f + 1)).reverse ++ keyword :: (ts.take f).reverse := by
    have hcut : ts.take i = ts.take f ++ keyword :: (ts.take i).drop (f + 1) := by
      have hf' : (ts.take i)[f]? = some keyword := by rw [List.getElem?_take, if_pos hfi, hf]
      obtain ⟨hlt, hget⟩ := List.getElem?_eq_some_iff.1 hf'
      conv => lhs; rw [← List.take_append_drop f (ts.take i)]
      rw [List.take_take, Nat.min_eq_left (Nat.le_of_lt hfi), List.drop_eq_getElem_cons hlt, hget]
    conv => lhs; rw [hcut]
    simp
  rw [colonRole, hsplit, ColonRole.isCallSite_ofPreceding_append]
  cases lastDecision? .default (ts.drop i) ((ts.take i).drop (f + 1)) with
  | some t => exact decidesForCall_default t
  | none =>
    -- The function keyword itself tells a declaration.
    have hdeclares : Config.default.isDeclarationKeyword keyword.text = true := by
      rw [isFunctionKeyword, Token.is_iff] at hk
      rw [hk.2]
      decide
    simp [ColonRole.ofPreceding, ColonRole.decidedBy?, hdeclares, ColonRole.isCallSite]

/-- **Which colons of parameters outlast the pass over calls.**  With the default settings, the
    colon of a parameter is still a colon after the pass exactly if, of the tokens between the
    function keyword and it, the last one that decides anything is not a point or an arrow. -/
theorem isColon_argumentPlace_iff {ts : List Token} {f i : Nat}
    (h : i ∈ parameterColons ts f) :
    (nameArguments .default ts).tokens[argumentPlace .default ts i]?.any isColon = true
      ↔ (lastDecision? .default (ts.drop i) ((ts.take i).drop (f + 1))).any isCallMark
        = false := by
  obtain ⟨keyword, hf, hk, hfi, hcolon⟩ := of_mem_parameterColons h
  obtain ⟨colon, hi, hc⟩ := (Option.any_eq_true _ _).1 hcolon
  have harg : isArgumentColon .default ts i
      = (lastDecision? .default (ts.drop i) ((ts.take i).drop (f + 1))).any isCallMark := by
    rw [isArgumentColon, hcolon, Bool.true_and, isCallSite_colonRole_behind_function hf hk hfi]
  rw [tokens_nameArguments (by decide), getElem?_argumentPlace hi, argumentToken, harg,
    Option.any_some]
  cases (lastDecision? .default (ts.drop i) ((ts.take i).drop (f + 1))).any isCallMark with
  | false => simpa using hc
  | true =>
    rw [if_pos rfl]
    decide

/-- The tokens of a function whose first parameter has a type with a point, and a closure behind
    it as its default. -/
def closureDefault : List Token :=
  [.keyword "func", .identifier "f", Bracket.round.openToken, .identifier "a", .symbol ":",
    .identifier "A", .symbol ".", .identifier "B", .symbol "=", Bracket.curly.openToken,
    Bracket.round.openToken, .identifier "x", Bracket.round.closeToken, .keyword "in",
    .identifier "x", Bracket.curly.closeToken, .symbol ",", .identifier "b", .symbol ":",
    .identifier "I", Bracket.round.closeToken]

/-- A closure's signature tells a declaration again, whatever the types before it. -/
theorem isColon_argumentPlace_behind_closure :
    18 ∈ parameterColons closureDefault 0 ∧
      (nameArguments .default closureDefault).tokens[argumentPlace .default closureDefault
        18]?.any isColon = true := by
  have hcolon : 18 ∈ parameterColons closureDefault 0 := by decide
  exact ⟨hcolon, (isColon_argumentPlace_iff hcolon).2 (by decide)⟩

/-- The tokens of a function whose first parameter has a type with a point. -/
def memberType : List Token :=
  [⟨.keyword, "func", ⟨1, 1⟩⟩, ⟨.whitespace, " ", ⟨1, 5⟩⟩, ⟨.identifier, "f", ⟨1, 6⟩⟩,
    ⟨.startOfScope, "(", ⟨1, 7⟩⟩, ⟨.identifier, "a", ⟨1, 8⟩⟩, ⟨.symbol, ":", ⟨1, 9⟩⟩,
    ⟨.identifier, "A", ⟨1, 10⟩⟩, ⟨.symbol, ".", ⟨1, 11⟩⟩, ⟨.identifier, "B", ⟨1, 12⟩⟩,
    ⟨.symbol, ",", ⟨1, 13⟩⟩, ⟨.identifier, "b", ⟨1, 14⟩⟩, ⟨.symbol, ":", ⟨1, 15⟩⟩,
    ⟨.identifier, "I", ⟨1, 16⟩⟩, ⟨.endOfScope, ")", ⟨1, 17⟩⟩]

theorem tokenize_memberType : tokenize "func f(a:A.B,b:I)" = .ok memberType := by
  cbv

/-- The point in a type makes a call of the next parameter's colon. -/
theorem not_isColon_behind_member_type :
    ¬ ∀ (source : String) (ts : List Token), tokenize source = .ok ts →
      ∀ f i, i ∈ parameterColons ts f →
        (nameArguments .default ts).tokens[argumentPlace .default ts i]?.any isColon = true := by
  intro hall
  have hkept := hall _ _ tokenize_memberType 0 11 (by decide)
  have hlost : (nameArguments .default memberType).tokens[argumentPlace .default memberType
      11]?.any isColon = false := by
    decide
  rw [hlost] at hkept
  exact Bool.false_ne_true hkept

end Kotlinize
