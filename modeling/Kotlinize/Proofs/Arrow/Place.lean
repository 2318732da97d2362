import Kotlinize.Proofs.Indices

namespace Kotlinize

/-!
# Return arrows by index

The pass over return arrows cuts the tokens behind a function keyword at the arrow.  This file
says where in a whole text that arrow stands: it is the first arrow behind the partner of the
first parenthesis, if nothing in between ends the signature.

* `parameterListStart?` — the parenthesis that opens the parameters of a function keyword.
* `startsLine`, `stopsSearch` — where the search for an arrow ends.
* `returnArrow?` — the index of the return arrow that belongs to a function keyword.
* `returnArrow?_append` — the cut of the pass is at that index.
-/

variable {config : Config} {ts rest : List Token} {t : Token} {i a : Nat}

/-! ### The search -/

/-- The index of the parenthesis that opens the parameter list of the function keyword at an
    index: the first parenthesis or brace behind the keyword, if it is a parenthesis. -/
def parameterListStart? (ts : List Token) (i : Nat) : Option Nat :=
  if ts[i]?.any isFunctionKeyword then
    (indexOfNext? opensListOrBody ts i).filter fun opener => ts[opener]?.any Bracket.round.opens
  else none

/-- Whether a line ends in the trivia at the end of a text. -/
def endsLineAtEnd (before : List Token) : Bool :=
  (before.reverse.takeWhile Token.isTrivia).any Token.isLinebreak

/-- Whether a line ends between an index and the last token before it that carries syntax. -/
def startsLine (ts : List Token) (i : Nat) : Bool := endsLineAtEnd (ts.take i)

/-- Whether the search for an arrow ends at an index: a token that carries syntax stands there
    that is an arrow, or cannot belong to the signature any more. -/
def stopsSearch (config : Config) (ts : List Token) (i : Nat) : Bool :=
  ts[i]?.any fun t =>
    !t.isTrivia && (isArrow t || endsSignature config (startsLine ts i) t)

/-- The arrow at which a search from an index on ends, if it ends at one. -/
def arrowFrom? (config : Config) (ts : List Token) (i : Nat) : Option Nat :=
  ((List.range' i (ts.length - i)).find? (stopsSearch config ts)).filter
    fun a => ts[a]?.any isArrow

/-- The index of the return arrow of the function keyword at an index: the first arrow behind
    its parameter list, unless the signature ends before it. -/
def returnArrow? (config : Config) (ts : List Token) (i : Nat) : Option Nat := do
  let opener ← parameterListStart? ts i
  let closer ← matchingClose? ts opener
  arrowFrom? config ts (closer + 1)

/-! ### The search in a text that is cut -/

theorem endsLineAtEnd_append_singleton (before : List Token) (t : Token) :
    endsLineAtEnd (before ++ [t])
      = if t.isTrivia then endsLineAtEnd before || t.isLinebreak else false := by
  rw [endsLineAtEnd, List.reverse_append, List.reverse_singleton, List.singleton_append,
    List.takeWhile_cons]
  split
  · rw [List.any_cons, Bool.or_comm]
    rfl
  · rfl

/-- The search from the end of `before` on, in the words of the pass. -/
theorem arrowFrom?_append (before rest : List Token) :
    arrowFrom? config (before ++ rest) before.length
      = (arrowAfterList? config (endsLineAtEnd before) rest).map
        fun s => before.length + s.before.length := by
  have hlen : (before ++ rest).length - before.length = rest.length := by simp
  rw [arrowFrom?, hlen]
  clear hlen
  induction rest generalizing before with
  | nil => rfl
  | cons t rest ih =>
    have hget : (before ++ t :: rest)[before.length]? = some t := by simp
    have hline : startsLine (before ++ t :: rest) before.length = endsLineAtEnd before := by
      rw [startsLine, List.take_left]
    -- The search goes on behind one more token.
    have hnext := ih (before ++ [t])
    rw [List.append_assoc, List.singleton_append, List.length_append, List.length_singleton,
      endsLineAtEnd_append_singleton] at hnext
    have hstep (r : Option Signature) :
        r.map (fun s => before.length + 1 + s.before.length)
          = (r.map (Signature.append [t])).map fun s => before.length + s.before.length := by
      rw [Option.map_map]
      refine congrArg (Option.map · r) (funext fun s => ?_)
      simp only [Function.comp_apply, Signature.append, List.length_append, List.length_singleton]
      omega
    rw [List.length_cons, List.range'_succ, List.find?_cons, arrowAfterList?, stopsSearch, hget,
      Option.any_some, hline]
    by_cases htrivia : t.isTrivia = true
    · -- Trivia is passed over; it may end a line.
      rw [if_pos htrivia] at hnext ⊢
      simp only [htrivia, Bool.not_true, Bool.false_and]
      rw [hnext, hstep]
    · by_cases harrow : isArrow t = true
      · simp [htrivia, harrow, Option.filter]
      · by_cases hend : endsSignature config (endsLineAtEnd before) t = true
        · simp [htrivia, harrow, hend, Option.filter]
        · rw [if_neg htrivia] at hnext
          simp only [htrivia, harrow, hend, Bool.not_false, Bool.or_self, Bool.and_false,
            Bool.false_eq_true, if_false]
          rw [hnext, hstep]

/-- Where the parameter list behind a function keyword ends, in the words of the pass. -/
theorem parameterListStart?_of_drop (h : ts.drop i = t :: rest) (hk : isFunctionKeyword t = true) :
    (parameterListStart? ts i).bind (matchingClose? ts)
      = (parameterList? rest).map fun p =>
          i + 1 + p.name.length + 1 + p.enclosed.inside.length := by
  rw [parameterListStart?, getElem?_of_drop_eq_cons h, Option.any_some, if_pos hk,
    indexOfNext?_of_drop _ h, parameterList?]
  cases hd : rest.dropWhile (fun t => !opensListOrBody t) with
  | nil => rfl
  | cons opener more =>
    have hopener : ts.drop (i + 1 + (rest.takeWhile fun t => !opensListOrBody t).length)
        = opener :: more := by
      rw [← List.drop_drop, drop_succ_of_drop h, drop_length_takeWhile, hd]
    rw [List.head?_cons, Option.map_some, Option.filter_some, getElem?_of_drop_eq_cons hopener,
      Option.any_some]
    dsimp only
    by_cases ho : Bracket.round.opens opener = true
    · rw [if_pos ho, if_pos ho, Option.bind_some, matchingClose?_of_drop hopener ho, Option.map_map]
      rfl
    · rw [if_neg ho, if_neg ho]
      rfl

/-- **The pass cuts at the return arrow.**  Behind a function keyword it cuts the text at the
    return arrow that belongs to the keyword. -/
theorem returnArrow?_append (before rest : List Token) (hk : isFunctionKeyword t = true) :
    returnArrow? config (before ++ t :: rest) before.length
      = (signature? config rest).map fun s => before.length + 1 + s.before.length := by
  have hdrop : (before ++ t :: rest).drop before.length = t :: rest := List.drop_left
  have hclose := parameterListStart?_of_drop hdrop hk
  simp only [returnArrow?, Option.bind_eq_bind]
  rw [← Option.bind_assoc, hclose, signature?]
  cases hp : parameterList? rest with
  | none => rfl
  | some p =>
    dsimp only
    -- Behind the partner of the parenthesis no line has ended yet.
    have hwhole : before ++ t :: rest
        = (before ++ t :: (p.name ++ p.opener :: p.enclosed.inside) ++ [p.enclosed.close])
          ++ p.enclosed.tail := by
      rw [← whole_of_parameterList? hp]
      simp [ParameterList.whole, Enclosed.whole]
    have hline : endsLineAtEnd (before ++ t :: (p.name ++ p.opener :: p.enclosed.inside)
        ++ [p.enclosed.close]) = false := by
      rw [endsLineAtEnd_append_singleton, isTrivia_of_closes (closes_of_parameterList? hp)]
      rfl
    have hsearch := @arrowFrom?_append config
      (before ++ t :: (p.name ++ p.opener :: p.enclosed.inside) ++ [p.enclosed.close])
      p.enclosed.tail
    have hlen : (before ++ t :: (p.name ++ p.opener :: p.enclosed.inside)
        ++ [p.enclosed.close]).length
          = before.length + 1 + p.name.length + 1 + p.enclosed.inside.length + 1 := by
      simp only [List.length_append, List.length_cons, List.length_nil]
      omega
    rw [← hwhole, hline, hlen] at hsearch
    rw [Option.map_some, Option.bind_some, hsearch, Option.map_map]
    refine congrArg (Option.map · _) (funext fun s => ?_)
    simp only [Function.comp_apply, Signature.append, List.length_append, List.length_cons,
      List.length_nil]
    omega

/-- A return arrow belongs to a function keyword. -/
theorem isFunctionKeyword_of_returnArrow? (h : returnArrow? config ts i = some a) :
    ts[i]?.any isFunctionKeyword = true := by
  rw [returnArrow?, Option.bind_eq_bind, Option.bind_eq_some_iff] at h
  obtain ⟨opener, hopener, -⟩ := h
  rw [parameterListStart?] at hopener
  exact (Option.ite_none_right_eq_some.1 hopener).1

/-- The text of a return arrow, cut at its function keyword, and the signature behind that. -/
theorem exists_signature?_of_returnArrow? (h : returnArrow? config ts i = some a) :
    ∃ before t rest s, ts = before ++ t :: rest ∧ before.length = i ∧ isFunctionKeyword t = true ∧
      signature? config rest = some s ∧ before.length + 1 + s.before.length = a := by
  obtain ⟨t, ht, hk⟩ := (Option.any_eq_true _ _).1 (isFunctionKeyword_of_returnArrow? h)
  obtain ⟨before, rest, rfl, rfl⟩ := exists_append_of_getElem? ht
  rw [returnArrow?_append before rest hk] at h
  obtain ⟨s, hs, ha⟩ := Option.map_eq_some_iff.1 h
  exact ⟨before, t, rest, s, rfl, rfl, hk, hs, ha⟩

end Kotlinize
