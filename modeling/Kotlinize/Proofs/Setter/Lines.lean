import Kotlinize.Proofs.Setter.Marks

namespace Kotlinize

/-!
# Setters line by line

The pass over setters removes tokens on a line and writes a new line behind it, so everything
behind moves.  Still each line is changed by itself, as long as no `modifier(set)` is spread over
two lines and none stands behind another one on its line.

* `Line`, `Lines` — a text in lines; `Lines.exists_whole_eq` says that every list of tokens is one.
* `relocatedLine` — a line as the pass leaves it, told by the indices of its tokens.
* `relocateSettersAfter_line` — one line in front of any text.
* `relocateSetters_lines` — a whole text, by induction on its lines.
-/

variable {config : Config} {line ts after : List Token} {t : Token}

/-! ### Texts in lines -/

/-- A line of a text, and the token that ends it. -/
structure Line where
  tokens : List Token
  lineEnd : Token
  unbroken : ∀ t ∈ tokens, t.isLinebreak = false
  ends : lineEnd.isLinebreak = true

/-- A text in lines.  The last one has no line end; it is empty behind the line end of a text that
    ends with one. -/
structure Lines where
  ended : List Line
  last : List Token
  unbroken : ∀ t ∈ last, t.isLinebreak = false

namespace Lines

/-- The tokens of a text. -/
def whole (text : Lines) : List Token :=
  (text.ended.flatMap fun l => l.tokens ++ [l.lineEnd]) ++ text.last

/-- The lines of a text, without line ends. -/
def all (text : Lines) : List (List Token) := text.ended.map Line.tokens ++ [text.last]

/-- Every list of tokens is a text in lines. -/
theorem exists_whole_eq (ts : List Token) : ∃ text : Lines, text.whole = ts := by
  induction ts with
  | nil => exact ⟨⟨[], [], nofun⟩, rfl⟩
  | cons t ts ih =>
    obtain ⟨⟨ended, last, hlast⟩, rfl⟩ := ih
    by_cases ht : t.isLinebreak = true
    · exact ⟨⟨⟨[], t, nofun, ht⟩ :: ended, last, hlast⟩, rfl⟩
    · rw [Bool.not_eq_true] at ht
      obtain _ | ⟨l, ended⟩ := ended
      · exact ⟨⟨[], t :: last, List.forall_mem_cons.2 ⟨ht, hlast⟩⟩, rfl⟩
      · let longer : Line :=
          { l with
            tokens := t :: l.tokens
            unbroken := List.forall_mem_cons.2 ⟨ht, l.unbroken⟩ }
        exact ⟨⟨longer :: ended, last, hlast⟩, rfl⟩

end Lines

/-! ### One line -/

/-- Each `(set)` on a line has a token other than whitespace in front of it there. -/
def SetsPreceded (line : List Token) : Prop :=
  ∀ i < line.length, isSetAt line i = true →
    (indexOfPrevious? (fun t => !t.isWhitespace) line i).isSome = true

instance (line : List Token) : Decidable (SetsPreceded line) :=
  inferInstanceAs (Decidable (∀ i < line.length, _))

/-- A line as the pass leaves it: the line of the modifier follows, behind a line end like the one
    that ends the line. -/
def relocatedLine (config : Config) (lineEnd : Token) (line : List Token) : List Token :=
  match takeMark? line with
  | some (modifier, kept) =>
    kept ++ [lineEnd, .whitespace (indentText line.head? ++ config.indentUnit), modifier, .space,
      .identifier "set"]
  | none => line

/-- On a line where each `(set)` has something in front of it, none comes first. -/
theorem not_setNext_of_setsPreceded (hl : ∀ t ∈ line, t.isLinebreak = false)
    (h : SetsPreceded line) : ¬ SetNext line after := by
  intro hset
  obtain ⟨back, opener, word, closer, rfl, hback, ho, hw, hc⟩ := hset.exists_append
  have hsetAt : isSetAt (back ++ opener :: word :: closer :: after) back.length = true :=
    isSetAt_iff.2 ⟨opener, word, closer, after, List.drop_left, ho, hw, hc⟩
  obtain ⟨k, hk⟩ := Option.isSome_iff_exists.1 (h back.length (by simp) hsetAt)
  obtain ⟨front, found, rest, htake, -, hfound, -⟩ := indexOfPrevious?_eq_some_iff.1 hk
  rw [List.take_left] at htake
  subst htake
  have hspacing := hback found (by simp)
  rw [isSpacing_eq_isWhitespace (hl found (by simp))] at hspacing
  simp [hspacing] at hfound

/-- A `(set)` that comes next in a line and what follows it comes next in the line, unless it does
    so in what follows. -/
theorem SetNext.of_append_lineEnd {us rest : List Token}
    (hrest : rest.head?.all Token.isLinebreak = true) (hnone : ∀ r, ¬ SetNext rest r)
    (h : SetNext (us ++ rest) after) : ∃ r, SetNext us r := by
  cases rest with
  | nil => exact ⟨after, by simpa using h⟩
  | cons lineEnd rest =>
    have hl : lineEnd.kind = .linebreak := by simpa [Token.isLinebreak] using hrest
    exact h.of_append hl hnone

theorem not_setNext_lineEnd {lineEnd : Token} (hend : lineEnd.isLinebreak = true)
    (h : ∀ r, ¬ SetNext ts r) (r : List Token) : ¬ SetNext (lineEnd :: ts) r := by
  intro hset
  obtain ho | ⟨-, hset⟩ := hset.head
  · rw [Token.isLinebreak, beq_iff_eq] at hend
    simp [Bracket.opens, hend] at ho
  · exact h r hset

/-! ### The pass -/

/-- The pass goes over tokens in which it finds nothing. -/
theorem relocateSettersAfter_append (config : Config) (head? : Option Token)
    (pre rest : List Token)
    (h : ¬ BehindKeyword (fun us => (restricted? (us ++ rest)).isSome = true) pre) :
    relocateSettersAfter config head? (pre ++ rest)
      = (relocateSettersAfter config (pre.foldl nextLineHead head?) rest).append pre := by
  induction pre generalizing head? with
  | nil => rfl
  | cons t pre ih =>
    rw [behindKeyword_cons, not_or] at h
    have ht : (if t.isKeyword then restricted? (pre ++ rest) else none) = none := by
      split
      · rename_i hk
        simpa [hk] using h.1
      · rfl
    rw [List.cons_append, relocateSettersAfter_of_eq_none ht, ih _ h.2]
    rfl

/-- At a line end the pass forgets the line. -/
theorem relocateSettersAfter_lineEnd (config : Config) (head? : Option Token) {lineEnd : Token}
    (hend : lineEnd.isLinebreak = true) (ts : List Token) :
    relocateSettersAfter config head? (lineEnd :: ts)
      = (relocateSettersAfter config none ts).cons lineEnd := by
  have hnot : (if lineEnd.isKeyword then restricted? ts else none) = none := by
    have hkind := hend
    rw [Token.isLinebreak, beq_iff_eq] at hkind
    simp [Token.isKeyword, hkind]
  rw [relocateSettersAfter_of_eq_none hnot, nextLineHead, if_pos hend]

theorem relocateSettersAfter_of_lineEnd (head? : Option Token)
    (hts : ts.head?.all Token.isLinebreak = true) :
    relocateSettersAfter config head? ts = relocateSettersAfter config none ts := by
  cases ts with
  | nil => rw [relocateSettersAfter, relocateSettersAfter]
  | cons lineEnd ts =>
    rw [relocateSettersAfter_lineEnd config head? hts, relocateSettersAfter_lineEnd config none hts]

/-- On a line the pass knows its first token. -/
theorem lineHead?_eq_head? (hl : ∀ t ∈ line, t.isLinebreak = false) :
    lineHead? line = line.head? := by
  have hrun : ∀ (t : Token) (us : List Token), (∀ u ∈ us, u.isLinebreak = false) →
      us.foldl nextLineHead (some t) = some t := by
    intro t us hus
    induction us with
    | nil => rfl
    | cons u us ih =>
      rw [List.forall_mem_cons] at hus
      rw [List.foldl_cons, nextLineHead, if_neg (by simp [hus.1])]
      exact ih hus.2
  cases line with
  | nil => rfl
  | cons t line =>
    rw [List.forall_mem_cons] at hl
    rw [lineHead?, List.foldl_cons, nextLineHead, if_neg (by simp [hl.1])]
    exact hrun t line hl.2

/-- The keyword of a mark is no whitespace, so the indentation stands in front of it. -/
theorem indentText_head?_append {front rest : List Token} {modifier : Token}
    (hm : modifier.isKeyword = true) :
    indentText (front ++ modifier :: rest).head? = indentText front.head? := by
  cases front with
  | nil => simp [indentText, isWhitespace_of_isKeyword hm]
  | cons t front => rfl

/-- What `(set)` comes next in restricts what stands behind the spacing behind that. -/
theorem restricted?_of_setNext (h : SetNext ts after) (hd : after.dropWhile Token.isSpacing ≠ []) :
    restricted? ts = some (after.dropWhile Token.isSpacing) := by
  induction h with
  | @set opener word closer after ho hw hc =>
    have hopener := isSpacing_eq_false (isTrivia_of_opens ho)
    unfold restricted?
    rw [List.dropWhile_cons_of_neg (by simp [hopener])]
    simp only [ho, hw, hc, Bool.and_self, if_true]
  | spacing ht _ ih =>
    have hrest := ih hd
    unfold restricted? at hrest ⊢
    rwa [List.dropWhile_cons_of_pos ht]

/-- Where a line ends, its tokens end. -/
theorem takeWhile_append_lineEnd {rest : List Token} (hl : ∀ t ∈ line, t.isLinebreak = false)
    (hrest : rest.head?.all Token.isLinebreak = true) :
    ((line ++ rest).takeWhile fun u => !u.isLinebreak) = line := by
  rw [List.takeWhile_append_of_pos (by simpa using hl)]
  cases rest with
  | nil => exact List.append_nil line
  | cons lineEnd rest =>
    rw [List.takeWhile_cons_of_neg (by simpa using hrest), List.append_nil]

theorem dropWhile_append_lineEnd {rest : List Token} (hl : ∀ t ∈ line, t.isLinebreak = false)
    (hrest : rest.head?.all Token.isLinebreak = true) :
    ((line ++ rest).dropWhile fun u => !u.isLinebreak) = rest := by
  rw [List.dropWhile_append_of_pos (by simpa using hl)]
  cases rest with
  | nil => rfl
  | cons lineEnd rest => exact List.dropWhile_cons_of_neg (by simpa using hrest)

/-- The pass at a modifier writes the rest of its line and the line of the modifier. -/
theorem relocateSettersAfter_modifier (config : Config) (head? : Option Token) {modifier : Token}
    {us rest : List Token} (hl : ∀ t ∈ us, t.isLinebreak = false) (hm : modifier.isKeyword = true)
    (hrest : rest.head?.all Token.isLinebreak = true) (hset : SetNext us after)
    (hkept : after.dropWhile Token.isSpacing ≠ []) :
    relocateSettersAfter config head? (modifier :: (us ++ rest))
      = ((relocateSettersAfter config none rest).append
          (after.dropWhile Token.isSpacing
            ++ setterLine config head? modifier rest)).counted 1 := by
  have hdeclaration : (after ++ rest).dropWhile Token.isSpacing
      = after.dropWhile Token.isSpacing ++ rest := by
    rw [List.dropWhile_append, if_neg (by simpa using hkept)]
  have hd : (if modifier.isKeyword then restricted? (us ++ rest) else none)
      = some (after.dropWhile Token.isSpacing ++ rest) := by
    rw [if_pos hm, ← hdeclaration]
    exact restricted?_of_setNext (hset.append rest) (by simp [hdeclaration, hkept])
  have hunbroken : ∀ t ∈ after.dropWhile Token.isSpacing, t.isLinebreak = false := by
    obtain ⟨back, opener, word, closer, rfl, -⟩ := hset.exists_append
    intro t ht
    exact hl t (by simp [(List.dropWhile_sublist _).mem ht])
  rw [relocateSettersAfter_of_eq_some hd, takeWhile_append_lineEnd hunbroken hrest,
    dropWhile_append_lineEnd hunbroken hrest]

/-- **One line.**  What the pass writes for a line with one mark, or without any, does not depend
    on the lines around it, if no `(set)` comes next behind a line that holds a keyword. -/
theorem relocateSettersAfter_line (config : Config) {rest : List Token}
    (hl : ∀ t ∈ line, t.isLinebreak = false) (hmark : HoldsOneMark line)
    (hrest : rest.head?.all Token.isLinebreak = true)
    (hnone : (∃ t ∈ line, t.isWhitespace = false) → ∀ r, ¬ SetNext rest r) :
    relocateSettersAfter config none (line ++ rest)
      = ((relocateSettersAfter config none rest).append
          (relocatedLine config (rest.head?.getD .newline) line)).counted
            (if (takeMark? line).isSome then 1 else 0) := by
  -- A keyword that the pass moves is one at the index of a mark.
  have hfound : ∀ front keyword us, line = front ++ keyword :: us → keyword.isKeyword = true →
      (restricted? (us ++ rest)).isSome = true →
      ∃ i ∈ marks line, modifierIndex? line i = some front.length := by
    intro front keyword us hline hk hs
    obtain ⟨r, hset, -⟩ := isSome_restricted?_iff.1 hs
    obtain ⟨r', hnext⟩ := hset.of_append_lineEnd hrest
      (hnone ⟨keyword, by simp [hline], isWhitespace_of_isKeyword hk⟩)
    exact exists_mem_marks hl hline hk hnext
  by_cases hmarks : marks line = []
  · have hnot : ¬ BehindKeyword (fun us => (restricted? (us ++ rest)).isSome = true) line := by
      rintro ⟨front, keyword, us, hline, hk, hs⟩
      obtain ⟨i, hi, -⟩ := hfound front keyword us hline hk hs
      simp [hmarks] at hi
    rw [relocateSettersAfter_append config none line rest hnot,
      relocateSettersAfter_of_lineEnd _ hrest, relocatedLine]
    simp [takeMark?, hmarks, Edited.counted, Edited.append]
  · obtain ⟨front, modifier, us, after, hline, hm, hset, hkept, htake, honly⟩ :=
      hmark.exists_takeMark? hl hmarks
    have hfront : ¬ BehindKeyword
        (fun vs => (restricted? (vs ++ (modifier :: (us ++ rest)))).isSome = true) front := by
      rintro ⟨front', keyword, vs, rfl, hk, hs⟩
      obtain ⟨i, hi, hindex⟩ := hfound front' keyword (vs ++ modifier :: us) (by simp [hline]) hk
        (by simpa using hs)
      have hsame := Option.some.inj (hindex.symm.trans (honly i hi))
      simp at hsame
    have hus : ∀ t ∈ us, t.isLinebreak = false := fun t ht => hl t (by simp [hline, ht])
    have hhead : lineHead? front = front.head? :=
      lineHead?_eq_head? fun t ht => hl t (by simp [hline, ht])
    have hwhole : line ++ rest = front ++ (modifier :: (us ++ rest)) := by simp [hline]
    rw [hwhole, relocateSettersAfter_append config none front _ hfront,
      relocateSettersAfter_modifier config _ hus hm hrest hset hkept, relocatedLine, htake]
    have hindent : indentText line.head? = indentText (front.foldl nextLineHead none) := by
      rw [hline, indentText_head?_append hm, ← hhead, lineHead?]
    simp [hindent, setterLine, Edited.append, Edited.counted]

/-! ### Whole texts -/

namespace Lines

/-- Each `(set)` has what is in front of it on its own line, and each line holds one
    `modifier(set)` at most, with the declaration behind it on that line. -/
structure SettersOnLines (text : Lines) : Prop where
  preceded : text.all.Pairwise fun earlier line =>
    (∃ t ∈ earlier, t.isWhitespace = false) → SetsPreceded line
  marked : ∀ line ∈ text.all, HoldsOneMark line

/-- A text as the pass leaves it, line by line. -/
def relocated (config : Config) (text : Lines) : List Token :=
  (text.ended.flatMap fun l => relocatedLine config l.lineEnd l.tokens ++ [l.lineEnd])
    ++ relocatedLine config .newline text.last

theorem whole_cons (l : Line) (ended : List Line) (last : List Token)
    (hlast : ∀ t ∈ last, t.isLinebreak = false) :
    whole ⟨l :: ended, last, hlast⟩ = l.tokens ++ l.lineEnd :: whole ⟨ended, last, hlast⟩ := by
  simp [whole]

/-- In a text where each `(set)` has something in front of it on its line, none comes first. -/
theorem not_setNext_whole {text : Lines} (h : ∀ line ∈ text.all, SetsPreceded line) :
    ∀ r, ¬ SetNext text.whole r := by
  obtain ⟨ended, last, hlast⟩ := text
  induction ended with
  | nil => exact fun r => not_setNext_of_setsPreceded hlast (h last (by simp [all]))
  | cons l ended ih =>
    have hlineEnd := not_setNext_lineEnd l.ends
      (ih fun line hline => h line (List.mem_cons_of_mem _ hline))
    intro r hset
    rw [whole_cons] at hset
    have hends : (l.lineEnd :: whole ⟨ended, last, hlast⟩).head?.all Token.isLinebreak = true :=
      l.ends
    obtain ⟨r', hline⟩ := hset.of_append_lineEnd hends hlineEnd
    exact not_setNext_of_setsPreceded l.unbroken (h l.tokens (by simp [all])) hline

end Lines

/-- **Setters move line by line.**  With any configuration, and in every text where each `(set)`
    has the token in front of it on its own line and each line holds one `modifier(set)` at most,
    with the declaration behind it: the pass changes the lines with such a modifier, each by
    itself, keeps the others and all line ends, and counts the lines that it changes. -/
theorem relocateSetters_lines (config : Config) (text : Lines) (h : text.SettersOnLines) :
    relocateSetters config text.whole
      = ⟨text.relocated config, text.all.countP fun line => (takeMark? line).isSome⟩ := by
  obtain ⟨ended, last, hlast⟩ := text
  rw [relocateSetters]
  -- The induction is on the lines; behind each line end the pass starts afresh.
  induction ended with
  | nil =>
    have hends : ([] : List Token).head?.all Token.isLinebreak = true := rfl
    have hline := relocateSettersAfter_line config hlast (h.marked last (by simp [Lines.all])) hends
      fun _ r hset => by cases hset
    rw [List.append_nil, relocateSettersAfter] at hline
    rw [Lines.whole, List.flatMap_nil, List.nil_append, hline]
    simp [Lines.relocated, Lines.all, Edited.append, Edited.counted, Edited.nil,
      List.countP_cons]
  | cons l ended ih =>
    obtain ⟨hbehind, hpairs⟩ := List.pairwise_cons.1 h.preceded
    have hrest := ih ⟨hpairs, fun line hline => h.marked line (List.mem_cons_of_mem _ hline)⟩
    have hends : (l.lineEnd :: Lines.whole ⟨ended, last, hlast⟩).head?.all Token.isLinebreak
        = true := l.ends
    have hnone : (∃ t ∈ l.tokens, t.isWhitespace = false) →
        ∀ r, ¬ SetNext (l.lineEnd :: Lines.whole ⟨ended, last, hlast⟩) r := fun hblank =>
      not_setNext_lineEnd l.ends
        (Lines.not_setNext_whole fun line hmem => hbehind line hmem hblank)
    have hline := relocateSettersAfter_line config l.unbroken
      (h.marked l.tokens (by simp [Lines.all])) hends hnone
    rw [relocateSettersAfter_lineEnd config none l.ends, hrest] at hline
    rw [Lines.whole_cons, hline]
    simp [Lines.relocated, Lines.all, Edited.append, Edited.counted, Edited.cons,
      List.countP_cons]
    exact Nat.add_comm _ _

/-- Three lines: an indented declaration, a call, and a declaration that ends the text. -/
def declarationsAroundCall : Lines where
  ended :=
    [{ tokens := [.whitespace "  ", .keyword "private", Bracket.round.openToken,
        .identifier "set", Bracket.round.closeToken, .space, .keyword "var", .space,
        .identifier "a"]
       lineEnd := ⟨.linebreak, "\r\n", .unplaced⟩
       unbroken := by decide
       ends := rfl },
     { tokens := [.identifier "update", Bracket.round.openToken, .identifier "set",
        Bracket.round.closeToken]
       lineEnd := .newline
       unbroken := by decide
       ends := rfl }]
  last := [.keyword "open", Bracket.round.openToken, .identifier "set",
    Bracket.round.closeToken, .keyword "var", .space, .identifier "b"]
  unbroken := by decide

/-- The declarations move their modifiers, the call stays as it is. -/
theorem relocateSetters_lines_declarations_around_call :
    declarationsAroundCall.SettersOnLines ∧
      render declarationsAroundCall.whole
        = "  private(set) var a\r\nupdate(set)\nopen(set)var b" ∧
      render (relocateSetters .default declarationsAroundCall.whole).tokens
        = "  var a\r\n  \tprivate set\r\nupdate(set)\nvar b\n\topen set" ∧
      (relocateSetters .default declarationsAroundCall.whole).count = 2 := by
  have hlines : declarationsAroundCall.SettersOnLines :=
    ⟨by decide, by decide⟩
  refine ⟨hlines, by cbv, ?_⟩
  rw [relocateSetters_lines .default declarationsAroundCall hlines]
  exact ⟨by cbv, by decide⟩

end Kotlinize
