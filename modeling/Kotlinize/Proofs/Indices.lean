import Kotlinize.Proofs.Nesting.Scopes
import Kotlinize.Proofs.Construct
import Kotlinize.Token.Index

namespace Kotlinize

/-!
# Searches by index in a text that is cut

The passes cut a text and go on with the rest, a search by index sees the whole text.  The
lemmas of this file say what a search finds that starts where a text is cut.

* `findIdx?_eq` — a search for an index, by what stands in front of the token it finds.
* `indexOfNext?_of_drop`, `drop_skipTrivia` — searches forward.
* `indexOfPrevious?_eq_some_iff` — a search backward, by what stands around the token it finds.
* `previousSignificant?_succ` — the search backward, token by token.
* `matchingClose?_of_drop` — the partner of a bracket.
* `getElem?_unspaced_slots` — where a token stands in a text that has been edited, spacing apart.
-/

variable {p : Token → Bool} {rest ts : List Token} {t : Token} {i k : Nat}

/-- The token that what is left of a list starts with. -/
theorem getElem?_of_drop_eq_cons (h : ts.drop i = t :: rest) : ts[i]? = some t := by
  rw [← List.head?_drop, h, List.head?_cons]

theorem drop_of_getElem? (h : ts[i]? = some t) : ts.drop i = t :: ts.drop (i + 1) := by
  obtain ⟨hlt, rfl⟩ := List.getElem?_eq_some_iff.1 h
  exact List.drop_eq_getElem_cons hlt

/-- A text, cut in front of the token at an index and behind it. -/
theorem exists_append_of_getElem? (h : ts[i]? = some t) :
    ∃ before rest, ts = before ++ t :: rest ∧ before.length = i := by
  refine ⟨ts.take i, ts.drop (i + 1), ?_, ?_⟩
  · rw [← drop_of_getElem? h, List.take_append_drop]
  · exact List.length_take_of_le (Nat.le_of_lt (List.getElem?_eq_some_iff.1 h).1)

theorem drop_succ_of_drop (h : ts.drop i = t :: rest) : ts.drop (i + 1) = rest := by
  rw [← List.tail_drop, h, List.tail_cons]

theorem drop_length_takeWhile (p : Token → Bool) (ts : List Token) :
    ts.drop (ts.takeWhile p).length = ts.dropWhile p := by
  have hdrop : (ts.takeWhile p ++ ts.dropWhile p).drop (ts.takeWhile p).length = ts.dropWhile p :=
    List.drop_left
  rwa [List.takeWhile_append_dropWhile] at hdrop

/-- The first token of a class stands behind those that are not of it. -/
theorem findIdx?_eq (p : Token → Bool) (ts : List Token) :
    ts.findIdx? p
      = (ts.dropWhile fun t => !p t).head?.map fun _ => (ts.takeWhile fun t => !p t).length := by
  induction ts with
  | nil => rfl
  | cons t ts ih =>
    rw [List.findIdx?_cons, List.dropWhile_cons, List.takeWhile_cons]
    cases p t with
    | true => rfl
    | false =>
      simp only [Bool.not_false, if_true, Bool.false_eq_true, if_false, List.length_cons, ih,
        Option.map_map]
      rfl

theorem indexOfNext?_of_drop (p : Token → Bool) (h : ts.drop i = t :: rest) :
    indexOfNext? p ts i
      = (rest.dropWhile fun t => !p t).head?.map fun _ =>
        i + 1 + (rest.takeWhile fun t => !p t).length := by
  rw [indexOfNext?, drop_succ_of_drop h, findIdx?_eq, Option.map_map]
  rfl

theorem skipTrivia_of_drop (h : ts.drop i = rest) :
    skipTrivia ts i = i + (leadingTrivia rest).length := by
  rw [skipTrivia, h]

theorem drop_skipTrivia (ts : List Token) (i : Nat) :
    ts.drop (skipTrivia ts i) = significant (ts.drop i) := by
  rw [skipTrivia, ← List.drop_drop]
  exact drop_length_takeWhile Token.isTrivia (ts.drop i)

/-- A search backward finds the last token of a class in front of an index. -/
theorem indexOfPrevious?_eq_some_iff :
    indexOfPrevious? p ts i = some k ↔ ∃ front found back,
      ts.take i = front ++ found :: back ∧ front.length = k ∧ p found = true ∧
        ∀ t ∈ back, p t = false := by
  rw [indexOfPrevious?, findIdx?_eq]
  generalize ts.take i = us
  constructor
  · intro h
    obtain ⟨j, hj, rfl⟩ := Option.map_eq_some_iff.1 h
    obtain ⟨found, hfound, rfl⟩ := Option.map_eq_some_iff.1 hj
    obtain ⟨front, hdrop⟩ := List.head?_eq_some_iff.1 hfound
    have hsplit := List.takeWhile_append_dropWhile (p := fun t => !p t) (l := us.reverse)
    rw [hdrop] at hsplit
    have hus := congrArg List.reverse hsplit
    rw [List.reverse_reverse, List.reverse_append, List.reverse_cons, List.append_assoc,
      List.singleton_append] at hus
    have hp := List.head?_dropWhile_not (fun t => !p t) us.reverse
    rw [hdrop] at hp
    refine ⟨front.reverse, found, _, hus.symm, ?_, by simpa using hp, fun t ht => ?_⟩
    · have hlength := congrArg List.length hus
      simp only [List.length_append, List.length_cons, List.length_reverse] at hlength ⊢
      omega
    · simpa using of_mem_takeWhile (List.mem_reverse.1 ht)
  · rintro ⟨front, found, back, rfl, rfl, hp, hback⟩
    have hrun : ∀ t ∈ back.reverse, (!p t) = true := fun t ht => by
      simp [hback t (List.mem_reverse.1 ht)]
    rw [List.reverse_append, List.reverse_cons, List.append_assoc, List.singleton_append,
      List.dropWhile_append_of_pos hrun, List.takeWhile_append_of_pos hrun,
      List.dropWhile_cons_of_neg (by simp [hp]), List.takeWhile_cons_of_neg (by simp [hp])]
    simp

/-- The search backward from behind a token stops at it, or goes on in front of it. -/
theorem previousSignificant?_succ (h : ts[i]? = some t) :
    previousSignificant? ts (i + 1)
      = if t.isTrivia then previousSignificant? ts i else some i := by
  obtain ⟨hlt, -⟩ := List.getElem?_eq_some_iff.1 h
  have hlen : (ts.take i).length = i := by
    rw [List.length_take]
    omega
  rw [previousSignificant?, previousSignificant?, indexOfPrevious?, indexOfPrevious?,
    List.take_add_one, h, Option.toList_some, List.reverse_append, List.reverse_singleton,
    List.singleton_append, List.findIdx?_cons, List.length_append, hlen, List.length_singleton]
  cases t.isTrivia with
  | false => rfl
  | true =>
    rw [if_neg (by decide), if_pos rfl, Option.map_map]
    refine congrArg (Option.map · _) (funext fun j => ?_)
    simp only [Function.comp_apply]
    omega

/-- The partner of a bracket stands behind what it encloses. -/
theorem matchingClose?_of_drop {b : Bracket} (h : ts.drop i = t :: rest) (ht : b.opens t = true) :
    matchingClose? ts i = (b.enclosed? 0 rest).map fun e => i + 1 + e.inside.length := by
  obtain ⟨hkind, htext⟩ := Token.is_iff.1 ht
  rw [matchingClose?, getElem?_of_drop_eq_cons h, Option.bind_eq_bind, Option.bind_some, hkind,
    htext, Bracket.ofOpener?_opener, drop_succ_of_drop h]
  cases he : b.enclosed? 0 rest <;> simp [he, guard]

/-! ### Places apart from spacing -/

/-- The tokens of a text without the whitespace and the line ends. -/
def unspaced (ts : List Token) : List Token := ts.filter fun t => !t.isSpacing

section

variable {slot : Nat → List Token} {f : Nat → Token → Token}

theorem length_unspaced_slots
    (hslot : ∀ i, unspaced (slot i) = (unspaced ts[i]?.toList).map (f i)) (k : Nat) :
    (unspaced ((List.range k).flatMap slot)).length = (unspaced (ts.take k)).length := by
  induction k with
  | zero => rfl
  | succ k ih =>
    have hlength := congrArg List.length (hslot k)
    rw [List.length_map] at hlength
    rw [List.range_succ, List.flatMap_append, List.flatMap_singleton, List.take_add_one, unspaced,
      List.filter_append, List.length_append, ← unspaced, ← unspaced, ih, hlength, unspaced,
      unspaced, unspaced, List.filter_append, List.length_append]

/-- **Places apart from spacing.**  If one token is written for each that is no spacing, and no
    other that is none, then what is written for a token stands in the place of the token, when
    places are counted without spacing. -/
theorem getElem?_unspaced_slots {n : Nat}
    (hslot : ∀ i, unspaced (slot i) = (unspaced ts[i]?.toList).map (f i))
    (ht : ts[i]? = some t) (hspacing : t.isSpacing = false) (hi : i < n) :
    (unspaced ((List.range n).flatMap slot))[(unspaced (ts.take i)).length]? = some (f i t) := by
  have hsingle : unspaced (slot i) = [f i t] := by
    rw [hslot i, ht]
    simp [unspaced, hspacing]
  have hrange : List.range n = List.range i ++ i :: List.range' (i + 1) (n - (i + 1)) := by
    rw [List.range_eq_range', List.range_eq_range', ← List.range'_succ,
      show n = i + (n - (i + 1) + 1) by omega, ← List.range'_append_1]
    simp
    omega
  rw [← length_unspaced_slots hslot i, hrange, List.flatMap_append, List.flatMap_cons, unspaced,
    List.filter_append, List.filter_append, ← unspaced, ← unspaced, hsingle,
    List.getElem?_append_right (Nat.le_refl _)]
  simp

end

end Kotlinize
