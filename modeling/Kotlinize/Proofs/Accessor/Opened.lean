import Kotlinize.Proofs.Bystander
import Kotlinize.Proofs.LateInit.Accessors

namespace Kotlinize

/-!
# The inside of a property body, accessor by accessor

When the accessors of a property leave their braces, the pass deals with the setter first and looks
for the getter in what it has written.  This file says what becomes of the tokens between the
braces in terms of the untouched tokens alone: parentheses are written behind the two words.

* `withoutTrivia` — the tokens of a text that carry syntax.
* `slotted` — a text with a run of tokens for each of its own.
* `accessorAt?_append_eq` — the search for an accessor in a text that is cut.
* `addedIn`, `withoutTrivia_openGetter_openSetter` — the parentheses that the edits add.
* `withoutTrivia_opened` — the same when the closing brace goes.
-/

variable {config : Config} {name : String} {ts as bs : List Token} {t : Token} {n : Nat}

/-! ### Tokens that carry syntax -/

/-- The tokens of a text that carry syntax. -/
def withoutTrivia (ts : List Token) : List Token := ts.filter fun t => !t.isTrivia

@[simp] theorem withoutTrivia_append (as bs : List Token) :
    withoutTrivia (as ++ bs) = withoutTrivia as ++ withoutTrivia bs :=
  List.filter_append ..

theorem withoutTrivia_eq_nil (h : ∀ t ∈ ts, t.isTrivia = true) : withoutTrivia ts = [] :=
  List.filter_eq_nil_iff.2 fun t ht => by simp [h t ht]

/-- Blanks and line ends are no tokens that carry syntax. -/
theorem skipsSpacing_code : SkipsSpacing fun t => !t.isTrivia :=
  fun t ht => by simp [Token.isTrivia_of_isSpacing ht]

@[simp] theorem withoutTrivia_gapAfter (ts : List Token) : withoutTrivia (gapAfter ts) = [] :=
  skipsSpacing_code.filter_gapAfter ts

@[simp] theorem withoutTrivia_space_cons (ts : List Token) :
    withoutTrivia (.space :: ts) = withoutTrivia ts := rfl

/-! ### A run of tokens for each token -/

/-- The text with a run of tokens for each of its own, when its first token has index `n`. -/
def slotted (slot : Nat → Token → List Token) (n : Nat) (ts : List Token) : List Token :=
  (ts.zipIdx n).flatMap fun indexed => slot indexed.2 indexed.1

section Slots

variable {slot : Nat → Token → List Token}

@[simp] theorem slotted_cons (t : Token) (ts : List Token) :
    slotted slot n (t :: ts) = slot n t ++ slotted slot (n + 1) ts := by
  simp [slotted]

@[simp] theorem slotted_append (as bs : List Token) :
    slotted slot n (as ++ bs) = slotted slot n as ++ slotted slot (n + as.length) bs := by
  simp [slotted, List.zipIdx_append]

theorem slotted_congr {slot' : Nat → Token → List Token}
    (h : ∀ i, n ≤ i → i < n + ts.length → ∀ t, slot i t = slot' i t) :
    slotted slot n ts = slotted slot' n ts := by
  induction ts generalizing n with
  | nil => rfl
  | cons t ts ih =>
    rw [List.length_cons] at h
    have hrest : ∀ i, n + 1 ≤ i → i < n + 1 + ts.length → ∀ t, slot i t = slot' i t :=
      fun i hn hi => h i (by omega) (by omega)
    rw [slotted_cons, slotted_cons, h n (Nat.le_refl n) (by omega), ih hrest]

/-- Where each token stays, the text does. -/
theorem slotted_eq_self (h : ∀ i, n ≤ i → i < n + ts.length → ∀ t, slot i t = [t]) :
    slotted slot n ts = ts := by
  rw [slotted_congr h, slotted, ← List.map_eq_flatMap, List.zipIdx_map_fst]

end Slots

/-! ### The search for an accessor -/

/-- More tokens behind. -/
def Accessor.append (a : Accessor) (bs : List Token) : Accessor :=
  { a with after := a.after ++ bs }

/-- Whether an accessor can start behind a token, when `ready` says so for the token itself. -/
def readyBehind (ready : Bool) (t : Token) : Bool := if t.isTrivia then ready else startsAfter t

/-- The search in a text that is cut: it ends in the first part, or goes on in the second one with
    the depth and the readiness that the first one leaves. -/
theorem accessorAt?_append_eq (name : String) (depth : Nat) (ready : Bool) (as bs : List Token) :
    accessorAt? name depth ready (as ++ bs)
      = ((accessorAt? name depth ready as).map (Accessor.append · bs)).or
        ((accessorAt? name (as.foldl Token.depthFrom depth) (as.foldl readyBehind ready) bs).map
          (Accessor.prepend as)) := by
  induction as generalizing depth ready with
  | nil => cases h : accessorAt? name depth ready bs <;> simp [accessorAt?, h, Accessor.prepend]
  | cons t as ih =>
    rw [List.cons_append, accessorAt?, accessorAt?]
    split
    · rfl
    · rw [ih, Option.map_or, Option.map_map, Option.map_map, Option.map_map]
      rfl

/-- An accessor is found at depth 0. -/
theorem foldl_depthFrom_of_accessorAt? {depth : Nat} {ready : Bool} {a : Accessor}
    (h : accessorAt? name depth ready ts = some a) : a.before.foldl Token.depthFrom depth = 0 := by
  induction ts generalizing depth ready a with
  | nil => cases h
  | cons t ts ih =>
    unfold accessorAt? at h
    split at h
    · rename_i hc
      cases h
      simp only [Bool.and_eq_true, beq_iff_eq] at hc
      exact hc.1.2
    · obtain ⟨a', ha', rfl⟩ := Option.map_eq_some_iff.1 h
      exact (ih ha' :)

theorem accessorAt?_eq_none_of_isTrivia (h : ∀ t ∈ ts, t.isTrivia = true) (depth : Nat)
    (ready : Bool) : accessorAt? name depth ready ts = none := by
  rw [Option.eq_none_iff_forall_ne_some]
  intro a ha
  obtain ⟨hwhole, hword⟩ := of_accessorAt? ha
  have hcode := isTrivia_of_is hword (by decide) (by decide) (by decide)
  rw [h a.word (hwhole ▸ by simp [Accessor.whole])] at hcode
  cases hcode

/-- Trivia at the end makes no difference. -/
theorem accessor?_append_trivia (h : ∀ t ∈ bs, t.isTrivia = true) :
    accessor? name (as ++ bs) = (accessor? name as).map (Accessor.append · bs) := by
  rw [accessor?, accessorAt?_append_eq, accessorAt?_eq_none_of_isTrivia h, Option.map_none,
    Option.or_none, accessor?]

/-! ### The parentheses of a setter -/

/-- The parentheses that a setter gets whose word stands in front of some tokens: none if it has
    some. -/
def setterParameter (config : Config) (after : List Token) : List Token :=
  if (significant after).head?.any Bracket.curly.opens then
    parentheses [.identifier config.implicitSetterParameter]
  else []

theorem openSetter_eq {a : Accessor} (h : accessor? "set" ts = some a) :
    openSetter config ts = a.before ++ a.word :: (setterParameter config a.after ++ a.after) := by
  rw [openSetter, h, setterParameter]
  dsimp only
  split
  · rfl
  · exact (of_accessorAt? h).1.symm

/-- Behind the word of a setter, its parentheses hide no accessor and let none start. -/
theorem accessorAt?_setterParameter (after more : List Token) :
    accessorAt? name 0 false (setterParameter config after ++ more)
      = (accessorAt? name 0 false more).map (Accessor.prepend (setterParameter config after)) := by
  rw [setterParameter]
  split
  · have hnone : accessorAt? name 0 false
        (parentheses [.identifier config.implicitSetterParameter]) = none := by
      simp [parentheses, accessorAt?, Bracket.openToken, Bracket.closeToken, Token.is,
        Token.identifier, Token.depthFrom]
    rw [accessorAt?_append_eq, hnone, Option.map_none, Option.none_or]
    rfl
  · rw [accessorAt?_append_eq]
    rfl

/-- The search for the getter in a text that is cut behind the word of the setter. -/
theorem accessor?_get_of_set {a : Accessor} (h : accessor? "set" ts = some a) (more : List Token) :
    accessor? "get" (a.before ++ a.word :: more)
      = ((accessor? "get" a.before).map (Accessor.append · (a.word :: more))).or
        ((accessorAt? "get" 0 false more).map (Accessor.prepend (a.before ++ [a.word]))) := by
  obtain ⟨hkind, htext⟩ := Token.is_iff.1 (of_accessorAt? h).2
  have hdepth : a.word.depthFrom 0 = 0 := by rw [Token.depthFrom, hkind]
  have hready : (if a.word.isTrivia then
      a.before.foldl readyBehind true else startsAfter a.word) = false := by
    have hcode := isTrivia_of_isIdentifier (t := a.word) (by simp [Token.isIdentifier, hkind])
    rw [if_neg (by simp [hcode])]
    simp [startsAfter, Bracket.closes, Token.is, hkind, htext, accessorModifiers]
  rw [accessor?, accessorAt?_append_eq, foldl_depthFrom_of_accessorAt? h, accessorAt?,
    hdepth, hready, if_neg (by simp [Token.is, htext]), Option.map_map, accessor?]
  refine congrArg _ (congrArg (Option.map · _) (funext fun g => ?_))
  simp [Accessor.prepend, Accessor.cons]

/-! ### Both accessors -/

/-- The parentheses that are added behind an index, when the words of a getter and a setter stand
    at two others. -/
def addedAt (getter? setter? : Option Nat) (parameter : List Token) (i : Nat) : List Token :=
  if getter? = some i then parentheses []
  else if setter? = some i then parameter
  else []

theorem addedAt_eq_nil {getter? setter? : Option Nat} {i : Nat} (hgetter : getter? ≠ some i)
    (hsetter : setter? ≠ some i) (parameter : List Token) :
    addedAt getter? setter? parameter i = [] := by
  rw [addedAt, if_neg hgetter, if_neg hsetter]

/-- The tokens of a text, each with some tokens added behind it. -/
def withAdded (added : Nat → List Token) (n : Nat) (ts : List Token) : List Token :=
  slotted (fun i t => t :: added i) n ts

section Added

variable {added : Nat → List Token}

theorem withAdded_append_cons (as : List Token) (w : Token) (bs : List Token) :
    withAdded added n (as ++ w :: bs)
      = withAdded added n as
        ++ w :: (added (n + as.length) ++ withAdded added (n + as.length + 1) bs) := by
  simp [withAdded]

theorem withAdded_append (as bs : List Token) :
    withAdded added n (as ++ bs) = withAdded added n as ++ withAdded added (n + as.length) bs :=
  slotted_append as bs

theorem withAdded_eq_self (h : ∀ i, n ≤ i → i < n + ts.length → added i = []) :
    withAdded added n ts = ts :=
  slotted_eq_self fun i hn hi t => by rw [h i hn hi]

/-- Tokens are added behind one token. -/
theorem withAdded_one (as : List Token) (w : Token) (bs : List Token)
    (h : ∀ i, i ≠ n + as.length → added i = []) :
    withAdded added n (as ++ w :: bs) = as ++ w :: (added (n + as.length) ++ bs) := by
  rw [withAdded_append_cons, withAdded_eq_self fun i _ hi => h i (by omega),
    withAdded_eq_self fun i hi _ => h i (by omega)]

/-- Tokens are added behind two tokens. -/
theorem withAdded_two (as : List Token) (v : Token) (bs : List Token) (w : Token) (cs : List Token)
    (h : ∀ i, i ≠ n + as.length → i ≠ n + as.length + 1 + bs.length → added i = []) :
    withAdded added n (as ++ v :: (bs ++ w :: cs))
      = as ++ v :: (added (n + as.length)
        ++ (bs ++ w :: (added (n + as.length + 1 + bs.length) ++ cs))) := by
  rw [withAdded_append_cons, withAdded_append_cons,
    withAdded_eq_self fun i _ hi => h i (by omega) (by omega),
    withAdded_eq_self fun i hn hi => h i (by omega) (by omega),
    withAdded_eq_self fun i hi _ => h i (by omega) (by omega)]

end Added

theorem openGetter_of_none (h : accessor? "get" ts = none) : openGetter ts = ts := by
  rw [openGetter, h]

theorem withoutTrivia_openGetter {a : Accessor} (h : accessor? "get" ts = some a) :
    withoutTrivia (openGetter ts)
      = withoutTrivia (a.before ++ a.word :: (parentheses [] ++ a.after)) := by
  rw [openGetter, h]
  simp only [withoutTrivia_append, withoutTrivia_gapAfter, List.append_nil]

/-- The parentheses that are added behind an index, when the first token between the braces of a
    property has index `n`. -/
def addedIn (config : Config) (n : Nat) (body : List Token) : Nat → List Token :=
  addedAt ((accessor? "get" body).map fun a => n + a.before.length)
    ((accessor? "set" body).map fun a => n + a.before.length)
    ((accessor? "set" body).elim [] fun a => setterParameter config a.after)

/-- Without a setter, parentheses are added behind the word of the getter. -/
theorem withoutTrivia_openGetter_eq (parameter : List Token) (n : Nat) (body : List Token) :
    withoutTrivia (openGetter body)
      = withoutTrivia (withAdded (addedAt
          ((accessor? "get" body).map fun a => n + a.before.length) none parameter) n body) := by
  cases hget : accessor? "get" body with
  | none =>
    have hadded : ∀ i, addedAt none none parameter i = [] :=
      fun i => addedAt_eq_nil (by nofun) (by nofun) parameter
    rw [openGetter_of_none hget, Option.map_none, withAdded_eq_self fun i _ _ => hadded i]
  | some g =>
    obtain ⟨hwhole, -⟩ := of_accessorAt? hget
    rw [withoutTrivia_openGetter hget, Option.map_some, ← hwhole, Accessor.whole, withAdded_one,
      addedAt, if_pos rfl]
    intro i hi
    exact addedAt_eq_nil (by simp; omega) (by nofun) parameter

/-- With a setter, the getter is found where it was, in front of the setter or behind it. -/
theorem withoutTrivia_openGetter_of_set {s : Accessor} {body : List Token}
    (hset : accessor? "set" body = some s) (n : Nat) :
    withoutTrivia (openGetter (s.before ++ s.word :: (setterParameter config s.after ++ s.after)))
      = withoutTrivia (withAdded (addedAt
          ((accessor? "get" body).map fun a => n + a.before.length) (some (n + s.before.length))
          (setterParameter config s.after)) n body) := by
  obtain ⟨hwhole, -⟩ := of_accessorAt? hset
  have hget := accessor?_get_of_set hset s.after
  have hopened := accessor?_get_of_set hset (setterParameter config s.after ++ s.after)
  rw [← Accessor.whole, hwhole] at hget
  rw [accessorAt?_setterParameter] at hopened
  cases hfront : accessor? "get" s.before with
  | some g =>
    obtain ⟨hbefore, -⟩ := of_accessorAt? hfront
    have hsplit : body = g.before ++ g.word :: (g.after ++ s.word :: s.after) := by
      rw [← hwhole, Accessor.whole, ← hbefore, Accessor.whole]
      simp
    have hlen : s.before.length = g.before.length + 1 + g.after.length := by
      rw [← hbefore, Accessor.whole]
      simp only [List.length_append, List.length_cons]
      omega
    rw [hfront, Option.map_some, Option.some_or] at hget hopened
    rw [withoutTrivia_openGetter hopened, hget, Option.map_some, hlen, hsplit]
    dsimp only [Accessor.append]
    rw [withAdded_two, addedAt, if_pos rfl, addedAt, if_neg (by simp; omega),
      if_pos (by simp; omega)]
    intro i hg hs
    exact addedAt_eq_nil (by simp; omega) (by simp; omega) _
  | none =>
    rw [hfront, Option.map_none, Option.none_or] at hget hopened
    cases hbehind : accessorAt? "get" 0 false s.after with
    | none =>
      rw [hbehind, Option.map_none] at hget hopened
      rw [openGetter_of_none hopened, hget, Option.map_none, ← hwhole, Accessor.whole,
        withAdded_one, addedAt, if_neg (by simp), if_pos rfl]
      intro i hi
      exact addedAt_eq_nil (by simp) (by simp; omega) _
    | some g =>
      obtain ⟨hafter, -⟩ := of_accessorAt? hbehind
      have hsplit : body = s.before ++ s.word :: (g.before ++ g.word :: g.after) := by
        rw [← hwhole, Accessor.whole, ← hafter, Accessor.whole]
      rw [hbehind, Option.map_some] at hget hopened
      rw [Option.map_some] at hopened
      rw [withoutTrivia_openGetter hopened, hget, Option.map_some, hsplit]
      dsimp only [Accessor.prepend]
      rw [withAdded_two, addedAt, if_neg (by simp), if_pos rfl, addedAt, if_pos (by simp; omega)]
      · simp
      · intro i hs hg
        exact addedAt_eq_nil (by simp; omega) (by simp; omega) _

/-- **What the edits of the accessors add.**  Trivia apart, they write parentheses behind the words
    of the first getter and the first setter of the untouched tokens, in whatever order they
    stand. -/
theorem withoutTrivia_openGetter_openSetter (config : Config) (n : Nat) (body : List Token) :
    withoutTrivia (openGetter (openSetter config body))
      = withoutTrivia (withAdded (addedIn config n body) n body) := by
  rw [addedIn]
  cases hset : accessor? "set" body with
  | none =>
    have hopen : openSetter config body = body := by rw [openSetter, hset]
    rw [hopen]
    exact withoutTrivia_openGetter_eq [] n body
  | some s =>
    rw [openSetter_eq hset]
    exact withoutTrivia_openGetter_of_set hset n

/-! ### Braces -/

/-- What a closing brace takes with it in front of it is trivia. -/
theorem exists_eq_unclosed_append (inside tail : List Token) :
    ∃ trivia, (∀ t ∈ trivia, t.isTrivia = true) ∧ inside = unclosed inside tail ++ trivia := by
  obtain ⟨blank, hblank, hinside⟩ : ∃ blank, (∀ t ∈ blank, t.isTrivia = true) ∧
      inside = dropEndIf Token.isWhitespace inside ++ blank := by
    rcases dropEndIf_eq Token.isWhitespace inside with h | ⟨t, ht, h⟩
    · exact ⟨[], nofun, by rw [h, List.append_nil]⟩
    · exact ⟨[t], List.forall_mem_singleton.2 (isTrivia_of_isWhitespace t ht), h⟩
  unfold unclosed
  dsimp only
  split
  · rcases dropEndIf_eq Token.isLinebreak (dropEndIf Token.isWhitespace inside) with h | ⟨t, ht, h⟩
    · exact ⟨blank, hblank, by rw [h]; exact hinside⟩
    · refine ⟨t :: blank, List.forall_mem_cons.2 ⟨isTrivia_of_isLinebreak t ht, hblank⟩, ?_⟩
      rw [← List.singleton_append, ← List.append_assoc, ← h]
      exact hinside
  · exact ⟨blank, hblank, hinside⟩

/-- Whether a brace comes first is seen in front of what starts with none. -/
theorem opens_significant_append (h : (significant bs).head?.any Bracket.curly.opens = false)
    (as : List Token) :
    (significant (as ++ bs)).head?.any Bracket.curly.opens
      = (significant as).head?.any Bracket.curly.opens := by
  rw [significant, List.dropWhile_append]
  cases hs : significant as with
  | nil =>
    rw [significant] at hs
    rw [hs]
    exact h
  | cons t more =>
    rw [significant] at hs
    rw [hs]
    rfl

theorem setterParameter_append (h : (significant bs).head?.any Bracket.curly.opens = false)
    (as : List Token) : setterParameter config (as ++ bs) = setterParameter config as := by
  rw [setterParameter, opens_significant_append h, setterParameter]

/-- What the edits of the accessors add when the closing brace is gone. -/
theorem withoutTrivia_opened (config : Config) (n : Nat) (inside tail : List Token) :
    withoutTrivia (openGetter (openSetter config (unclosed inside tail)))
      = withoutTrivia (withAdded (addedIn config n inside) n inside) := by
  obtain ⟨trivia, htrivia, hinside⟩ := exists_eq_unclosed_append inside tail
  generalize unclosed inside tail = body at hinside ⊢
  subst hinside
  have hsignificant : significant trivia = [] :=
    List.dropWhile_eq_nil_iff.2 fun t ht => htrivia t ht
  have hplace (name : String) :
      ((accessor? name (body ++ trivia)).map fun a => n + a.before.length)
        = (accessor? name body).map fun a => n + a.before.length := by
    rw [accessor?_append_trivia htrivia, Option.map_map]
    rfl
  have hparameter :
      ((accessor? "set" (body ++ trivia)).elim [] fun a => setterParameter config a.after)
        = (accessor? "set" body).elim [] fun a => setterParameter config a.after := by
    rw [accessor?_append_trivia htrivia]
    cases accessor? "set" body with
    | none => rfl
    | some a => exact setterParameter_append (by rw [hsignificant]; rfl) a.after
  -- Both words stand in front of the trivia.
  have hbefore (name : String) (i : Nat) (hi : n + body.length ≤ i) :
      ((accessor? name body).map fun a => n + a.before.length) ≠ some i := by
    intro h
    obtain ⟨a, ha, rfl⟩ := Option.map_eq_some_iff.1 h
    have hlen := congrArg List.length (of_accessorAt? ha).1
    simp only [Accessor.whole, List.length_append, List.length_cons] at hlen
    omega
  have hadded : addedIn config n (body ++ trivia) = addedIn config n body := by
    rw [addedIn, hplace, hplace, hparameter, addedIn]
  have hstays : withAdded (addedIn config n body) (n + body.length) trivia = trivia :=
    withAdded_eq_self fun i hi _ => addedAt_eq_nil (hbefore "get" i hi) (hbefore "set" i hi) _
  rw [hadded, withAdded_append, withoutTrivia_append, hstays, withoutTrivia_eq_nil htrivia,
    List.append_nil]
  exact withoutTrivia_openGetter_openSetter config n body

end Kotlinize
