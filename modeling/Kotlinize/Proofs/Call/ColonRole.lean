import Kotlinize.Call.NamedArgument
import Kotlinize.Proofs.Construct

namespace Kotlinize

/-!
# What decides the role of a colon

The guess goes back from the colon to the nearest token that decides.  This file says what a
token must be for that, so that the tokens between it and the colon can be changed freely, as
long as they go on deciding nothing.

* `isCallMark`, `opensClosure` — the tokens that decide, besides the declaration keywords.
* `ColonRole.ofPreceding_cons_of_undecided` — a token that decides nothing is passed over.
* `lastDecision?` — the last of some tokens that decides.
* `ColonRole.isCallSite_ofPreceding_append` — that token makes a colon behind them a call's, or not.
-/

variable {config : Config}

/-! ### Tokens that decide -/

/-- Whether a token makes the next colon a call's: a point or an arrow. -/
def isCallMark (t : Token) : Bool := t.is .symbol "." || t.is .symbol "->"

/-- Whether a token in front of `behind` opens a closure signature. -/
def opensClosure (config : Config) (t : Token) (behind : List Token) : Bool :=
  Bracket.curly.opens t && (significant behind).head?.any fun n => config.isClosureOpener n.text

/-- The first token behind a list that carries syntax, when a token is put in front of it. -/
theorem head?_significant_cons (t : Token) (ts : List Token) :
    (significant (t :: ts)).head? = if t.isTrivia then (significant ts).head? else some t := by
  unfold significant
  rw [List.dropWhile_cons]
  split
  · rfl
  · rfl

namespace ColonRole

variable {next? next?' : Option Token} {t : Token}

/-- What a token decides, in the order of the tests. -/
theorem decidedBy?_eq_none_iff :
    decidedBy? config next? t = none ↔ config.isDeclarationKeyword t.text = false ∧
      (Bracket.curly.opens t && next?.any fun n => config.isClosureOpener n.text) = false ∧
      isCallMark t = false := by
  unfold decidedBy? isCallMark
  cases config.isDeclarationKeyword t.text with
  | true => simp
  | false =>
    cases (Bracket.curly.opens t && next?.any fun n => config.isClosureOpener n.text) with
    | true => simp
    | false => cases (t.is .symbol "." || t.is .symbol "->") <;> simp

/-- A token that decides nothing is passed over. -/
theorem ofPreceding_cons_of_undecided (h : decidedBy? config next? t = none)
    (before : List Token) :
    ofPreceding config next? (t :: before)
      = ofPreceding config (if t.isTrivia then next? else some t) before := by
  rw [ofPreceding, h, Option.getD_none]

/-- Of the token that follows it matters only whether it opens a closure signature. -/
theorem ofPreceding_congr
    (h : (next?.any fun n => config.isClosureOpener n.text)
      = next?'.any fun n => config.isClosureOpener n.text) (before : List Token) :
    ofPreceding config next? before = ofPreceding config next?' before := by
  induction before with
  | nil => rfl
  | cons t before ih =>
    rw [ofPreceding, ofPreceding]
    have hdecided : decidedBy? config next? t = decidedBy? config next?' t := by
      rw [decidedBy?, decidedBy?, h]
    rw [hdecided]
    by_cases ht : t.isTrivia = true
    · rw [if_pos ht, if_pos ht, ih]
    · rw [if_neg ht, if_neg ht]

end ColonRole

/-! ### The nearest token that decides -/

/-- Whether a token in front of `behind` decides the role of a later colon. -/
def decides (config : Config) (t : Token) (behind : List Token) : Bool :=
  config.isDeclarationKeyword t.text || opensClosure config t behind || isCallMark t

/-- The last of some tokens, in front of `after`, that decides. -/
def lastDecision? (config : Config) (after : List Token) : List Token → Option Token
  | [] => none
  | t :: ts =>
    (lastDecision? config after ts).or (if decides config t (ts ++ after) then some t else none)

/-- Whether a token that decides does so for a call. -/
def decidesForCall (config : Config) (t : Token) : Bool :=
  isCallMark t && !config.isDeclarationKeyword t.text

namespace ColonRole

theorem isSome_decidedBy? (config : Config) (t : Token) (behind : List Token) :
    (decidedBy? config (significant behind).head? t).isSome = decides config t behind := by
  cases hd : decides config t behind with
  | false =>
    rw [decides, Bool.or_eq_false_iff, Bool.or_eq_false_iff] at hd
    rw [decidedBy?_eq_none_iff.2 ⟨hd.1.1, hd.1.2, hd.2⟩]
    rfl
  | true =>
    rw [Option.isSome_iff_ne_none, ne_eq, decidedBy?_eq_none_iff]
    rintro ⟨hk, ho, hm⟩
    rw [decides, hk, hm, opensClosure, ho] at hd
    exact Bool.false_ne_true hd

/-- A brace is no call mark, so what a call mark decides depends on the keywords alone. -/
theorem isCallSite_of_decidedBy? {t : Token} {next? : Option Token} {role : ColonRole}
    (h : decidedBy? config next? t = some role) :
    role.isCallSite = decidesForCall config t := by
  unfold decidedBy? at h
  unfold decidesForCall
  split at h
  · rename_i hk
    cases h
    simp [isCallSite, hk]
  · rename_i hk
    split at h
    · rename_i ho
      cases h
      rw [Bool.and_eq_true, Bracket.opens, Token.is_iff] at ho
      simp [isCallSite, isCallMark, Token.is, ho.1.1]
    · split at h
      · rename_i hm
        cases h
        simpa [isCallSite, isCallMark, hk] using hm
      · cases h

/-- **The nearest token that decides, decides.**  Behind some tokens a colon is a call's if the
    last of them that decides does so for a call; if none of them decides, it is up to the tokens
    before them. -/
theorem isCallSite_ofPreceding_append (after ts before : List Token) :
    (ofPreceding config (significant after).head? (ts.reverse ++ before)).isCallSite
      = match lastDecision? config after ts with
        | some t => decidesForCall config t
        | none => (ofPreceding config (significant (ts ++ after)).head? before).isCallSite := by
  induction ts generalizing before with
  | nil => rfl
  | cons t ts ih =>
    rw [List.reverse_cons, List.append_assoc, List.singleton_append, ih, lastDecision?]
    cases lastDecision? config after ts with
    | some u => rfl
    | none =>
      have hsome := isSome_decidedBy? config t (ts ++ after)
      cases hd : decidedBy? config (significant (ts ++ after)).head? t with
      | some role =>
        rw [hd] at hsome
        rw [← hsome]
        simpa [ofPreceding, hd] using isCallSite_of_decidedBy? hd
      | none =>
        rw [hd] at hsome
        rw [← hsome]
        simp [ofPreceding_cons_of_undecided hd, head?_significant_cons]

end ColonRole

end Kotlinize
