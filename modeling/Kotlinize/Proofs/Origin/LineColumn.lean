import Kotlinize.Proofs.Literal.Grammar
import Kotlinize.Proofs.Origin.Places

namespace Kotlinize

/-!
# Places by line and column

A place counts the line terminators of the text in front of it and the bytes behind the last of
them.  The places of tokens are counted otherwise, each from the one before it: a token that is a
line terminator starts a line, and in any other token a line feed does.  The two counts agree as
long as no comment or literal holds a carriage return that stands alone.

* `terminators`, `lastLine`, `lineColumn` — the place behind a text.
* `loneReturns` — the carriage returns that no line feed follows.
* `line_behind` — by how many lines the places of tokens fall short.
* `pos_eq_lineColumn_iff` — when a token stands at the place behind the text in front of it.
-/

/-! ### The place behind a text -/

/-- The number of line terminators of a text: a carriage return and the line feed behind it are
    one. -/
def terminators : List Char → Nat
  | '\r' :: '\n' :: cs => terminators cs + 1
  | c :: cs => terminators cs + if isLineEnd c then 1 else 0
  | [] => 0

/-- What stands behind the last line terminator of a text. -/
def lastLine (cs : List Char) : List Char := cs.rtakeWhile fun c => !isLineEnd c

/-- The place behind a text: lines by terminators, columns by bytes. -/
def lineColumn (cs : List Char) : Position :=
  ⟨1 + terminators cs, 1 + (String.ofList (lastLine cs)).utf8ByteSize⟩

/-- The number of carriage returns that no line feed follows. -/
def loneReturns : List Char → Nat
  | [] => 0
  | c :: cs => loneReturns cs + if c = '\r' ∧ cs.head? ≠ some '\n' then 1 else 0

/-- A terminator ends in a line feed, or is a carriage return that stands alone. -/
theorem terminators_eq (cs : List Char) : terminators cs = cs.count '\n' + loneReturns cs := by
  fun_induction terminators cs with
  | case1 cs ih =>
    simp [loneReturns, ih]
    omega
  | case2 c cs hpair ih =>
    have hhead : c = '\r' → cs.head? ≠ some '\n' := by
      rintro rfl h
      obtain ⟨more, rfl⟩ := List.head?_eq_some_iff.1 h
      exact hpair more rfl rfl
    rw [loneReturns, List.count_cons, ih]
    by_cases hlf : c = '\n'
    · simp [hlf, isLineEnd]
      omega
    by_cases hcr : c = '\r'
    · simp [hcr, hhead hcr, isLineEnd]
      omega
    · simp [hlf, hcr, isLineEnd]
  | case3 => rfl

/-- Next to each other, two texts have the carriage returns alone that they have by themselves, if
    they do not meet between a carriage return and a line feed. -/
theorem loneReturns_append {as bs : List Char}
    (h : as.getLast? = some '\r' → bs.head? ≠ some '\n') :
    loneReturns (as ++ bs) = loneReturns as + loneReturns bs := by
  induction as with
  | nil => simp [loneReturns]
  | cons a as ih =>
    rw [List.cons_append, loneReturns, loneReturns]
    cases as with
    | nil =>
      have hhead : a = '\r' → bs.head? ≠ some '\n' := fun ha => h (by rw [ha]; rfl)
      by_cases ha : a = '\r'
      · simp [loneReturns, ha, hhead ha]
        omega
      · simp [loneReturns, ha]
    | cons b as =>
      rw [ih (by simpa using h)]
      exact Nat.add_right_comm _ _ _

/-! ### The place behind some characters -/

theorem line_foldl_advance (p : Position) (cs : List Char) :
    (cs.foldl Position.advance p).line = p.line + cs.count '\n' := by
  induction cs generalizing p with
  | nil => rfl
  | cons c cs ih =>
    rw [List.foldl_cons, ih, List.count_cons, Position.advance]
    by_cases hlf : c = '\n'
    · simp [hlf]
      omega
    · simp [hlf]

@[simp] theorem lastLine_append_singleton (cs : List Char) (c : Char) :
    lastLine (cs ++ [c]) = if isLineEnd c then [] else lastLine cs ++ [c] := by
  rw [lastLine, List.rtakeWhile_concat]
  cases isLineEnd c <;> rfl

/-- A character that is not a carriage return by itself moves the column on as it should. -/
theorem column_advance {p : Position} {front : List Char} {c : Char} (hc : c ≠ '\r')
    (h : p.column = (lineColumn front).column ∨ c = '\n') :
    (p.advance c).column = (lineColumn (front ++ [c])).column := by
  rw [Position.advance, lineColumn, lastLine_append_singleton]
  by_cases hlf : c = '\n'
  · simp [hlf, isLineEnd]
  · have hcol : p.column = 1 + (String.ofList (lastLine front)).utf8ByteSize :=
      h.resolve_right hlf
    simp [hlf, hc, isLineEnd, hcol, String.ofList_append]
    omega

/-- Behind a text without carriage returns that stand alone the column is right, if it was in front
    of it or a line feed comes first. -/
theorem column_foldl_advance {p : Position} {front cs : List Char} (hlone : loneReturns cs = 0)
    (h : p.column = (lineColumn front).column ∨ cs.head? = some '\n') :
    (cs.foldl Position.advance p).column = (lineColumn (front ++ cs)).column := by
  -- Behind a carriage return the column is wrong, until the line feed behind it starts a line.
  induction cs generalizing p front with
  | nil =>
    rw [List.append_nil]
    exact h.resolve_right (by simp)
  | cons c cs ih =>
    rw [loneReturns, Nat.add_eq_zero_iff] at hlone
    have hsplit : front ++ c :: cs = front ++ [c] ++ cs := by simp
    rw [List.foldl_cons, hsplit]
    apply ih hlone.1
    by_cases hcr : c = '\r'
    · have hhead : ¬ (c = '\r' ∧ cs.head? ≠ some '\n') := by simpa using hlone.2
      exact .inr (not_not.1 fun hne => hhead ⟨hcr, hne⟩)
    · exact .inl (column_advance hcr (h.imp_right Option.some.inj))

/-! ### Where lexemes end -/

/-- The marks that close a block comment are its last characters. -/
theorem blockComment?_suffix {depth : Nat} {cs : List Char} {k : Cut}
    (h : blockComment? depth cs = some k) : ['*', '/'] <:+ k.text := by
  fun_induction blockComment? depth cs generalizing k with
  | case1 depth cs ih | case3 depth cs _ ih =>
    simp only [Option.map_map, Option.map_eq_some_iff, Function.comp_apply] at h
    obtain ⟨k', hk', rfl⟩ := h
    exact (ih hk').trans ((List.suffix_cons _ _).trans (List.suffix_cons _ _))
  | case2 cs =>
    obtain rfl := Option.some.inj h
    exact List.suffix_refl _
  | case4 depth c cs _ _ ih =>
    obtain ⟨k', hk', rfl⟩ := Option.map_eq_some_iff.1 h
    exact (ih hk').trans (List.suffix_cons _ _)
  | case5 => cases h

theorem not_mem_return_of_escapedName? {cs : List Char} {k : Cut} (h : escapedName? cs = some k) :
    '\r' ∉ k.text := by
  induction cs generalizing k with
  | nil => cases h
  | cons c cs ih =>
    rw [escapedName?] at h
    split at h
    · rename_i hc
      obtain rfl := Option.some.inj h
      simp [hc]
    split at h
    · cases h
    · rename_i hline
      obtain ⟨k', hk', rfl⟩ := Option.map_eq_some_iff.1 h
      have hne : '\r' ≠ c := by
        rintro rfl
        exact hline rfl
      exact List.not_mem_cons_of_ne_of_not_mem hne (ih hk')

theorem not_mem_return_of_takeWhile {p : Char → Bool} (hp : p '\r' = false) (cs : List Char) :
    '\r' ∉ (Cut.takeWhile p cs).text := by
  intro hmem
  have hreturn : p '\r' = true := List.all_eq_true.1 List.all_takeWhile _ hmem
  rw [hp] at hreturn
  cases hreturn

theorem not_mem_return_number (cs : List Char) : '\r' ∉ (number cs).text := by
  have hall : '\r' ∉ cs.take (numberLength cs) := by
    induction cs with
    | nil => simp
    | cons c cs ih =>
      rw [numberLength]
      split
      · rename_i hc
        have hne : '\r' ≠ c := by
          rintro rfl
          cases hc
        rw [List.take_succ_cons]
        exact List.not_mem_cons_of_ne_of_not_mem hne ih
      · simp
  exact hall

theorem not_mem_return_operatorTail (c : Char) (cs : List Char) :
    '\r' ∉ (operatorTail c cs).text := by
  rcases operatorTail_eq c cs with ⟨op, more, hf, -, ht⟩ | ⟨-, ht⟩
  · have hall : ∀ op ∈ operators, '\r' ∉ op := by decide
    rw [ht]
    exact fun hmem => hall _ (List.mem_of_find?_eq_some hf) (List.mem_cons_of_mem c hmem)
  · simp [ht]

theorem getLast?_ne_of_suffix {cs suffix : List Char} (h : suffix <:+ cs) (hne : suffix ≠ [])
    (hlast : '\r' ∉ suffix) : cs.getLast? ≠ some '\r' := by
  obtain ⟨front, rfl⟩ := h
  rw [List.getLast?_append_of_ne_nil front hne]
  exact fun h => hlast (List.mem_of_getLast? h)

/-- **No lexeme but a line end ends in a carriage return.** -/
theorem getLast?_ne_of_next {c : Char} {cs : List Char} {l : Lexeme}
    (h : Lexeme.next c cs = .ok l) (hkind : l.kind ≠ .linebreak) :
    (l.text c).getLast? ≠ some '\r' := by
  by_cases hlit : l.kind = .stringLiteral
  · obtain ⟨hashes, multiline, inside, htext, -, hclose⟩ := exists_inside_of_next h hlit
    rw [htext]
    refine getLast?_ne_of_suffix (hclose.closing_suffix.trans
      ((List.suffix_append _ _).trans (List.suffix_append _ _))) ?_ fun hmem => ?_
    · cases multiline <;> exact List.cons_ne_nil _ _
    · exact absurd (Frame.isLineEnd_of_mem_closing hmem) (by decide)
  have hfree (hc : c ≠ '\r') (hmore : '\r' ∉ l.more.text) : (l.text c).getLast? ≠ some '\r' :=
    getLast?_ne_of_suffix (List.suffix_refl _) (List.cons_ne_nil _ _)
      (List.not_mem_cons_of_ne_of_not_mem hc.symm hmore)
  -- A character of a class is no carriage return, if that is not of the class.
  have hclass {q : Char → Bool} (hq : q c = true) (hcr : q '\r' = false) : c ≠ '\r' := by
    rintro rfl
    rw [hcr] at hq
    cases hq
  have hr := reading_next c cs
  rw [h] at hr
  generalize hl : (Except.ok l : Except Fault Lexeme) = r at hr
  cases hr with
  | lineEnd =>
    obtain rfl := Except.ok.inj hl
    exact absurd rfl hkind
  | blank hb =>
    obtain rfl := Except.ok.inj hl
    exact hfree (hclass hb rfl) (not_mem_return_of_takeWhile rfl cs)
  | lineComment hc _ =>
    obtain rfl := Except.ok.inj hl
    exact hfree (hc ▸ by decide) (not_mem_return_of_takeWhile rfl cs)
  | blockComment hc hs =>
    obtain ⟨k, hk, rfl⟩ := eq_of_orFault hl
    obtain ⟨k', hk', rfl⟩ := Option.map_eq_some_iff.1 hk
    refine getLast?_ne_of_suffix ((blockComment?_suffix hk').trans
      ((List.suffix_append _ _).trans (List.suffix_cons c _))) (by decide) (by decide)
  | escaped hc =>
    obtain ⟨k, hk, rfl⟩ := eq_of_orFault hl
    exact hfree (hc ▸ by decide) (not_mem_return_of_escapedName? hk)
  | literal =>
    obtain ⟨k, -, rfl⟩ := eq_of_orFault hl
    exact absurd rfl hlit
  | opener hc | closer hc =>
    obtain rfl := Except.ok.inj hl
    exact hfree (hclass hc rfl) List.not_mem_nil
  | directive hc _ =>
    obtain rfl := Except.ok.inj hl
    refine hfree ?_ (not_mem_return_of_takeWhile (by decide) cs)
    rcases hc with rfl | rfl <;> decide
  | number hc =>
    obtain rfl := Except.ok.inj hl
    exact hfree (hclass hc rfl) (not_mem_return_number cs)
  | word hc =>
    obtain rfl := Except.ok.inj hl
    exact hfree (hclass hc (by decide)) (not_mem_return_of_takeWhile (by decide) cs)
  | operator hc =>
    obtain rfl := Except.ok.inj hl
    exact hfree (hclass hc (by decide)) (not_mem_return_operatorTail c cs)
  | unexpected => cases hl

/-- A line end is a line feed, a carriage return, or the two together. -/
theorem text_of_next_linebreak {c : Char} {cs : List Char} {l : Lexeme}
    (h : Lexeme.next c cs = .ok l) (hkind : l.kind = .linebreak) :
    l.text c = ['\n'] ∨ (l.text c = ['\r'] ∧ l.rest.head? ≠ some '\n') ∨
      l.text c = ['\r', '\n'] := by
  have hc : (isBlank c || isLineEnd c) = true := by
    rw [← isSpacingKind_of_next h, hkind]
    rfl
  rw [Bool.or_eq_true] at hc
  rcases hc with hblank | hline
  · obtain rfl := Except.ok.inj ((Reading.blank hblank).eq_ok h)
    cases hkind
  obtain rfl := Except.ok.inj ((Reading.lineEnd hline).eq_ok h)
  by_cases hpair : c = '\r' ∧ cs.head? = some '\n'
  · obtain ⟨rfl, hcs⟩ := hpair
    obtain ⟨more, rfl⟩ := List.head?_eq_some_iff.1 hcs
    exact .inr (.inr rfl)
  · have htail : Lexeme.lineEndTail c cs = ⟨[], cs⟩ := by
      rw [Lexeme.lineEndTail, if_neg hpair]
      rfl
    rw [Lexeme.text, Lexeme.rest, htail]
    rw [isLineEnd, Bool.or_eq_true, beq_iff_eq, beq_iff_eq] at hline
    rcases hline with rfl | rfl
    · exact .inl rfl
    · exact .inr (.inl ⟨rfl, fun hcs => hpair ⟨rfl, hcs⟩⟩)

/-- **No line terminator is cut apart.** -/
theorem head?_ne_of_next {c : Char} {cs : List Char} {l : Lexeme} (h : Lexeme.next c cs = .ok l)
    (hlast : (l.text c).getLast? = some '\r') : l.rest.head? ≠ some '\n' := by
  have hkind : l.kind = .linebreak := by
    by_contra hne
    exact getLast?_ne_of_next h hne hlast
  rcases text_of_next_linebreak h hkind with htext | ⟨-, hrest⟩ | htext
  · rw [htext] at hlast
    cases hlast
  · exact hrest
  · rw [htext] at hlast
    cases hlast

/-! ### The places of tokens -/

/-- The carriage returns that stand alone in tokens that are no line ends. -/
def hiddenReturns (ts : List Token) : Nat :=
  ((ts.filter fun t => !t.isLinebreak).map fun t => loneReturns t.text.toList).sum

theorem hiddenReturns_cons (t : Token) (ts : List Token) :
    hiddenReturns (t :: ts)
      = (if t.isLinebreak then 0 else loneReturns t.text.toList) + hiddenReturns ts := by
  cases hline : t.isLinebreak <;> simp [hiddenReturns, hline]

theorem hiddenReturns_eq_zero_iff {ts : List Token} :
    hiddenReturns ts = 0 ↔ ∀ t ∈ ts, t.isLinebreak = false → loneReturns t.text.toList = 0 := by
  rw [hiddenReturns, List.sum_eq_zero_iff, List.forall_mem_map]
  simp

/-- A token moves the line on by its terminators, those apart that it hides. -/
theorem line_after {c : Char} {cs : List Char} {l : Lexeme} (h : Lexeme.next c cs = .ok l)
    (pos : Position) :
    (pos.after l.kind (l.text c)).line
        + (if (l.token c pos).isLinebreak then 0 else loneReturns (l.text c))
      = pos.line + terminators (l.text c) := by
  have hkind : (l.token c pos).isLinebreak = (l.kind == .linebreak) := rfl
  rw [Position.after, hkind]
  by_cases hline : l.kind = .linebreak
  · have hone : terminators (l.text c) = 1 := by
      rcases text_of_next_linebreak h hline with htext | ⟨htext, -⟩ | htext <;> rw [htext] <;> rfl
    simp [hline, hone]
  · simp [hline, line_foldl_advance, terminators_eq]
    omega

/-- **The places of tokens fall short by the carriage returns that the tokens hide.** -/
theorem line_behind {pos : Position} {cs : List Char} {ts : List Token}
    (h : tokenizeAt pos cs = .ok ts) :
    (pos.behind ts).line + hiddenReturns ts = pos.line + terminators (spelling ts) := by
  fun_induction tokenizeAt pos cs generalizing ts with
  | case1 pos =>
    obtain rfl := Except.ok.inj h
    rfl
  | case2 => cases h
  | case3 pos c cs l hl ih =>
    obtain ⟨us, hus, rfl⟩ := map_eq_ok_iff.1 h
    have hrest := ih hus
    have hfirst := line_after hl pos
    have hspelling : spelling (l.token c pos :: us) = l.text c ++ l.rest := by
      rw [spelling_cons, toList_token_text, spelling_of_tokenizeAt hus]
    have hsum : terminators (l.text c ++ l.rest) = terminators (l.text c) + terminators l.rest := by
      rw [terminators_eq, terminators_eq, terminators_eq, List.count_append,
        loneReturns_append (head?_ne_of_next hl)]
      omega
    rw [spelling_of_tokenizeAt hus] at hrest
    rw [Position.behind_cons, hiddenReturns_cons, toList_token_text, hspelling, hsum]
    show ((pos.after l.kind (l.text c)).behind us).line + _ = _
    omega

/-- The last character of a line terminator ends a line. -/
theorem exists_lineEnd_of_isLinebreak {pos : Position} {t : Token}
    (h : tokenizeAt pos t.text.toList = .ok [t]) (hkind : t.kind = .linebreak) :
    ∃ front c, t.text.toList = front ++ [c] ∧ isLineEnd c = true := by
  cases htext : t.text.toList with
  | nil => simp [htext, tokenizeAt] at h
  | cons c cs =>
    rw [htext] at h
    obtain ⟨l, us, hl, -, hts⟩ := tokenizeAt_cons_eq_ok.1 h
    obtain ⟨rfl, -⟩ := List.cons.inj hts
    rw [← htext, toList_token_text]
    rcases text_of_next_linebreak hl hkind with hc | ⟨hc, -⟩ | hc
    · exact ⟨[], '\n', hc, rfl⟩
    · exact ⟨[], '\r', hc, rfl⟩
    · exact ⟨['\r'], '\n', hc, rfl⟩

/-- Behind tokens that hide no carriage return the column is right. -/
theorem column_behind {cs : List Char} {before after : List Token}
    (h : tokenizeAt .start cs = .ok (before ++ after))
    (hlone : ∀ t ∈ before, t.isLinebreak = false → loneReturns t.text.toList = 0) :
    (Position.start.behind before).column = (lineColumn (spelling before)).column := by
  -- The last token decides, as it starts a line or goes on with the one in front of it.
  induction before using List.reverseRecOn generalizing after with
  | nil => rfl
  | append_singleton before t ih =>
    rw [List.append_assoc, List.singleton_append] at h
    have hcolumn := ih h fun u hu => hlone u (List.mem_append_left [t] hu)
    have hbehind : Position.start.behind (before ++ [t])
        = (Position.start.behind before).after t.kind t.text.toList := List.foldl_append
    have hspelling : spelling (before ++ [t]) = spelling before ++ t.text.toList := by
      simp [spelling]
    rw [hbehind, hspelling, Position.after]
    by_cases hkind : t.kind = .linebreak
    · obtain ⟨front, c, htext, hc⟩ := exists_lineEnd_of_isLinebreak (tokenizeAt_singleton h).2 hkind
      have hnil : lastLine (spelling before ++ t.text.toList) = [] := by
        rw [htext, ← List.append_assoc, lastLine_append_singleton, hc]
        rfl
      rw [if_pos hkind, lineColumn, hnil]
      rfl
    · have hline : t.isLinebreak = false := beq_eq_false_iff_ne.2 hkind
      rw [if_neg hkind]
      exact column_foldl_advance (hlone t (List.mem_append_right before List.mem_cons_self) hline)
        (.inl hcolumn)

theorem Position.eq_of_line_of_column {p q : Position} (hline : p.line = q.line)
    (hcolumn : p.column = q.column) : p = q := by
  cases p
  cases q
  rw [Position.mk.injEq]
  exact ⟨hline, hcolumn⟩

/-- **Tokens stand where the text in front of them ends**, as long as no carriage return in it is
    hidden.  For every source text and each of its tokens: the text in front of the token is that
    of the tokens in front of it, and the token's line is one more than the number of line
    terminators of that text, and its column one more than the number of bytes behind the last of
    them, if and only if no token in front of it that is no line end itself holds a carriage return
    without a line feed behind it. -/
theorem pos_eq_lineColumn_iff {source : String} {before after : List Token} {t : Token}
    (h : tokenize source = .ok (before ++ t :: after)) :
    dropMark source.toList = spelling before ++ (t.text.toList ++ spelling after) ∧
      (t.pos = lineColumn (spelling before) ↔
        ∀ u ∈ before, u.isLinebreak = false → loneReturns u.text.toList = 0) := by
  have hpos : t.pos = Position.start.behind before := (tokenizeAt_singleton h).1
  have hline := line_behind (tokenizeAt_append h).1
  refine ⟨?_, ?_⟩
  · rw [← spelling_of_tokenize h, spelling_append, spelling_cons]
  rw [hpos, ← hiddenReturns_eq_zero_iff]
  have hstart : Position.start.line = 1 := rfl
  constructor
  · intro heq
    have hlines : (Position.start.behind before).line = 1 + terminators (spelling before) := by
      rw [heq]
      rfl
    omega
  · intro hzero
    have hcolumn := column_behind h (hiddenReturns_eq_zero_iff.1 hzero)
    have hlines : (Position.start.behind before).line = (lineColumn (spelling before)).line := by
      show _ = 1 + terminators (spelling before)
      omega
    exact Position.eq_of_line_of_column hlines hcolumn

/-- A carriage return that is a line end, and one in a comment with a line feed behind it. -/
theorem pos_eq_lineColumn_behind_comment :
    tokenize "é\r/*\r\nß*/a" = .ok
        [⟨.identifier, "é", ⟨1, 1⟩⟩, ⟨.linebreak, "\r", ⟨1, 3⟩⟩, ⟨.comment, "/*\r\nß*/", ⟨2, 1⟩⟩,
          ⟨.identifier, "a", ⟨3, 5⟩⟩] ∧
      ⟨3, 5⟩ = lineColumn "é\r/*\r\nß*/".toList := by
  have h : tokenize "é\r/*\r\nß*/a" = .ok
      ([⟨.identifier, "é", ⟨1, 1⟩⟩, ⟨.linebreak, "\r", ⟨1, 3⟩⟩, ⟨.comment, "/*\r\nß*/", ⟨2, 1⟩⟩]
        ++ ⟨.identifier, "a", ⟨3, 5⟩⟩ :: []) := by
    cbv
  exact ⟨h, (pos_eq_lineColumn_iff h).2.2 (by decide)⟩

/-- The comment of a text that hides a line terminator. -/
def returnInComment : Token := ⟨.comment, "/*\r*/", ⟨1, 1⟩⟩

/-- **A comment may hide a line terminator.** -/
theorem not_pos_eq_lineColumn :
    ¬ ∀ (source : String) (before after : List Token) (t : Token),
      tokenize source = .ok (before ++ t :: after) → t.pos = lineColumn (spelling before) := by
  intro hall
  have htokenize : tokenize "/*\r*/a"
      = .ok ([returnInComment] ++ ⟨.identifier, "a", ⟨1, 6⟩⟩ :: []) := by
    cbv
  have hpos : (⟨1, 6⟩ : Position) = lineColumn "/*\r*/".toList := hall _ _ _ _ htokenize
  have hplace : lineColumn "/*\r*/".toList = ⟨2, 3⟩ := by
    decide
  rw [hplace] at hpos
  cases hpos

end Kotlinize
