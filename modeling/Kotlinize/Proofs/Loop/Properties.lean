import Kotlinize.Proofs.Accessor.Pass
import Kotlinize.Proofs.LateInit.Substitution
import Kotlinize.Proofs.Loop.Cursor
import Kotlinize.Token.Edit

namespace Kotlinize

/-!
# The loops over properties

Both loops search for the next variable keyword that declares a property of their kind, edit the
text around it, and go on behind it.  An edit inserts tokens in front of the next search, but no
variable keyword; so each iteration leaves fewer of these ahead.

* `computedStep`, `lateInitStep` — an iteration of each loop.
* `variableCount_computedStep`, `variableCount_lateInitStep` — the variable keywords ahead get
  fewer.
* `ends_computedStep`, `ends_lateInitStep` — the loops end, with the outcome of the passes.
-/

variable {config : Config} {s s' : Cursor} {ts : List Token} {t : Token} {i k n : Nat}

/-! ### Iterations -/

/-- At a computed property: its accessors move behind the type, if it is to be changed. -/
def visitComputed (config : Config) (e : Edited) (k _opener : Nat) : Cursor :=
  match e.tokens[k]?.bind fun keyword => suffixed? config keyword (e.tokens.drop (k + 1)) with
  | some (keyword, edited) => ⟨e.tokens.take k ++ keyword :: edited, k + 1, e.count + 1⟩
  | none => ⟨e.tokens, k + 1, e.count⟩

/-- The loop over computed properties visits each variable with a brace behind its type. -/
def computedStep (config : Config) : Cursor → Option Cursor :=
  search bodyOpener? (visitComputed config)

/-- At a late-initialised property: its mark goes, the modifier stands in front of its keyword. -/
def visitLateInit (e : Edited) (k mark : Nat) : Cursor :=
  ⟨insertAt (removeAt e.tokens mark) k lateInitModifier, k + 3, e.count + 1⟩

/-- The loop over late-initialised properties visits each variable with a mark behind its type. -/
def lateInitStep : Cursor → Option Cursor := search lateInitMark? visitLateInit

/-! ### What an iteration makes of a property -/

theorem visitComputed_of_some {keyword : Token} {rest edited : List Token} (before : List Token)
    (o : Nat) (h : suffixed? config t rest = some (keyword, edited)) :
    visitComputed config ⟨before ++ t :: rest, n⟩ before.length o
      = ⟨(before ++ [keyword]) ++ edited, (before ++ [keyword]).length, n + 1⟩ := by
  have hdrop : (before ++ t :: rest).drop before.length = t :: rest := List.drop_left
  rw [visitComputed, getElem?_of_drop_eq_cons hdrop, Option.bind_some, drop_succ_of_drop hdrop, h]
  dsimp only
  rw [List.take_left, List.length_append, List.length_singleton, List.append_assoc,
    List.singleton_append]

theorem visitComputed_of_none {rest : List Token} (before : List Token) (o : Nat)
    (h : suffixed? config t rest = none) :
    visitComputed config ⟨before ++ t :: rest, n⟩ before.length o
      = ⟨(before ++ [t]) ++ rest, (before ++ [t]).length, n⟩ := by
  have hdrop : (before ++ t :: rest).drop before.length = t :: rest := List.drop_left
  rw [visitComputed, getElem?_of_drop_eq_cons hdrop, Option.bind_some, drop_succ_of_drop hdrop, h]
  dsimp only
  rw [List.length_append, List.length_singleton, List.append_assoc, List.singleton_append]

/-- What an iteration makes of a late-initialised property, whose parts are given. -/
theorem visitLateInit_append (before head tail : List Token) (t mark : Token) (n : Nat) :
    visitLateInit ⟨before ++ t :: (head ++ mark :: tail), n⟩ before.length
        (before.length + 1 + head.length)
      = ⟨(before ++ lateInitModifier ++ [t]) ++ (head ++ tail),
          (before ++ lateInitModifier ++ [t]).length, n + 1⟩ := by
  have hremove : removeAt (before ++ t :: (head ++ mark :: tail))
      (before.length + 1 + head.length) = before ++ t :: (head ++ tail) := by
    have hcut : before ++ t :: (head ++ mark :: tail) = (before ++ t :: head) ++ mark :: tail := by
      simp
    have hlen : before.length + 1 + head.length = (before ++ t :: head).length := by
      simp only [List.length_append, List.length_cons]
      omega
    rw [hcut, removeAt, hlen, List.eraseIdx_append_of_length_le (Nat.le_refl _), Nat.sub_self,
      List.eraseIdx_cons_zero, List.append_assoc, List.cons_append]
  rw [visitLateInit]
  dsimp only
  rw [hremove, insertAt, List.take_left, List.drop_left]
  simp [lateInitModifier]

/-! ### Variable keywords ahead -/

/-- Behind a variable keyword there are fewer of them. -/
theorem variableCount_drop_lt (hik : i ≤ k) (h : ts[k]?.any isVariableKeyword = true) :
    variableCount (ts.drop (k + 1)) < variableCount (ts.drop i) := by
  obtain ⟨t, ht, hk⟩ := (Option.any_eq_true _ _).1 h
  have hle : variableCount (ts.drop k) ≤ variableCount (ts.drop i) :=
    (List.drop_sublist_drop_left ts hik).countP_le
  rw [drop_of_getElem? ht, variableCount_cons, if_pos hk] at hle
  omega

/-- **Computed properties.**  An iteration leaves fewer variable keywords ahead, and edits one
    property at most. -/
theorem variableCount_computedStep (h : computedStep config s = some s') :
    variableCount s'.ahead < variableCount s.ahead ∧ s'.count ≤ s.count + 1 := by
  obtain ⟨ts, i, n⟩ := s
  obtain ⟨k, opener, hik, hopener, rfl⟩ := search_eq_some h
  have hkeyword := isVariableKeyword_of_bodyOpener? hopener
  have hlt := variableCount_drop_lt hik hkeyword
  obtain ⟨t, ht, -⟩ := (Option.any_eq_true _ _).1 hkeyword
  obtain ⟨before, rest, rfl, rfl⟩ := exists_append_of_getElem? ht
  rw [drop_succ_of_drop List.drop_left] at hlt
  cases hs : suffixed? config t rest with
  | some r =>
    rw [Cursor.edited, visitComputed_of_some before opener hs, Cursor.ahead_append,
      variableCount_of_suffixed? hs]
    exact ⟨hlt, Nat.le_refl _⟩
  | none =>
    rw [Cursor.edited, visitComputed_of_none before opener hs, Cursor.ahead_append]
    exact ⟨hlt, Nat.le_succ _⟩

/-- **Late-initialised properties.**  An iteration leaves fewer variable keywords ahead, and edits
    one property. -/
theorem variableCount_lateInitStep (h : lateInitStep s = some s') :
    variableCount s'.ahead < variableCount s.ahead ∧ s'.count = s.count + 1 := by
  obtain ⟨ts, i, n⟩ := s
  obtain ⟨k, mark, hik, hmark, rfl⟩ := search_eq_some h
  refine ⟨?_, rfl⟩
  have hlt := variableCount_drop_lt hik (isVariableKeyword_of_lateInitMark? hmark)
  obtain ⟨t, head, m, tail, hdrop, -, -, hm, rfl⟩ := exists_typedHead_of_lateInitMark? hmark
  obtain ⟨before, rest, rfl, rfl⟩ := exists_append_of_getElem? (getElem?_of_drop_eq_cons hdrop)
  rw [List.drop_left] at hdrop
  obtain ⟨-, rfl⟩ := List.cons.inj hdrop
  have hmark : isVariableKeyword m = false := by
    simp [isVariableKeyword, Token.is, (Token.is_iff.1 hm).1]
  have hcount : variableCount (head ++ tail) = variableCount (head ++ m :: tail) := by
    simp [variableCount_cons, hmark]
  rw [drop_succ_of_drop List.drop_left] at hlt
  rw [Cursor.edited, visitLateInit_append, Cursor.ahead_append, hcount]
  exact hlt

/-! ### Both loops end -/

/-- A property that is to be changed has a brace behind its type. -/
theorem exists_bodyOpener?_of_suffixed? {keyword : Token} {rest edited : List Token}
    (hdrop : ts.drop k = t :: rest) (hv : isVariableKeyword t = true)
    (h : suffixed? config t rest = some (keyword, edited)) : ∃ o, bodyOpener? ts k = some o := by
  obtain ⟨p, hp, -⟩ := suffixed?_eq_some h
  have hbraces := bodyOpener?_of_drop hdrop hv
  rw [hp, Option.map_some, Option.bind_eq_some_iff] at hbraces
  obtain ⟨o, ho, -⟩ := hbraces
  exact ⟨o, ho⟩

/-- **The loop over computed properties ends** from every place, with the outcome of the pass. -/
theorem ends_computedStep (config : Config) (before ts : List Token) (n : Nat) :
    Ends (computedStep config) ⟨before ++ ts, before.length, n⟩
      (((suffixAccessors config ts).append before).counted n) := by
  fun_induction suffixAccessors config ts generalizing before n with
  | case1 => exact .done (search_of_length_le (by simp))
  | case2 t ts hv keyword edited hs ih =>
    have hdrop : (before ++ t :: ts).drop before.length = t :: ts := List.drop_left
    obtain ⟨o, ho⟩ := exists_bodyOpener?_of_suffixed? hdrop hv hs
    have hstep : computedStep config ⟨before ++ t :: ts, before.length, n⟩
        = some ⟨before ++ [keyword] ++ edited, (before ++ [keyword]).length, n + 1⟩ := by
      rw [computedStep, search_of_some (by simp) ho, visitComputed_of_some before o hs]
    have hrest := ih (before ++ [keyword]) (n + 1)
    rw [← Edited.append_cons] at hrest
    exact .next hstep (by simpa [Edited.counted, Edited.append, Nat.add_assoc] using hrest)
  | case3 t ts hv hs ih =>
    have hrest := ih (before ++ [t]) n
    rw [← Edited.append_cons] at hrest
    cases ho : bodyOpener? (before ++ t :: ts) before.length with
    | some o =>
      -- The loop visits the property and leaves it as it is.
      have hstep : computedStep config ⟨before ++ t :: ts, before.length, n⟩
          = some ⟨before ++ [t] ++ ts, (before ++ [t]).length, n⟩ := by
        rw [computedStep, search_of_some (by simp) ho, visitComputed_of_none before o hs]
      exact .next hstep hrest
    | none =>
      exact .skip_cons (skips_search ho) hrest
  | case4 t ts hv ih =>
    have hrest := ih (before ++ [t]) n
    rw [← Edited.append_cons] at hrest
    have hnone : bodyOpener? (before ++ t :: ts) before.length = none := by
      rw [Option.eq_none_iff_forall_ne_some]
      intro o ho
      have := isVariableKeyword_of_bodyOpener? ho
      simp [hv] at this
    exact .skip_cons (skips_search hnone) hrest

/-- **The loop over late-initialised properties ends** from every place, with the outcome of the
    pass. -/
theorem ends_lateInitStep (before ts : List Token) (n : Nat) :
    Ends lateInitStep ⟨before ++ ts, before.length, n⟩
      (((markLateInit ts).append before).counted n) := by
  induction ts using markLateInit_induction generalizing before n with
  | nil =>
    rw [markLateInit]
    exact .done (search_of_length_le (by simp))
  | property t head mark tail hk hh hm ih =>
    have hdrop : (before ++ t :: (head ++ mark :: tail)).drop before.length
        = t :: (head ++ mark :: tail) := List.drop_left
    have hstep : lateInitStep ⟨before ++ t :: (head ++ mark :: tail), before.length, n⟩
        = some ⟨(before ++ lateInitModifier ++ [t]) ++ (head ++ tail),
            (before ++ lateInitModifier ++ [t]).length, n + 1⟩ := by
      rw [lateInitStep, search_of_some (by simp) (lateInitMark?_of_typedHead hdrop hk hh hm),
        visitLateInit_append]
    have hrest := ih (before ++ lateInitModifier ++ [t] ++ head) (n + 1)
    rw [markLateInit_of_typedHead hk hh hm]
    refine .next hstep (.skip_append (fun k hk hlt => skips_search ?_) ?_)
    · -- No variable is declared in the head.
      rw [Option.eq_none_iff_forall_ne_some]
      intro m hmark
      obtain ⟨u, hu, hv⟩ := (Option.any_eq_true _ _).1 (isVariableKeyword_of_lateInitMark? hmark)
      rw [List.getElem?_append_right hk, List.getElem?_append_left (by omega)] at hu
      rw [hh.isVariableKeyword u (List.mem_of_getElem? hu)] at hv
      cases hv
    · simpa [lateInitStep, Edited.counted, Edited.append, Nat.add_assoc] using hrest
  | other t rest h ih =>
    have hdrop : (before ++ t :: rest).drop before.length = t :: rest := List.drop_left
    have hrest := ih (before ++ [t]) n
    rw [← Edited.append_cons] at hrest
    rw [markLateInit_of_not_marked h]
    exact .skip_cons (skips_search (lateInitMark?_of_not_marked hdrop h)) hrest

end Kotlinize
