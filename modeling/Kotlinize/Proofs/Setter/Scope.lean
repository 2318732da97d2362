import Kotlinize.Proofs.Nesting.Stages
import Kotlinize.Proofs.Origin.Places

namespace Kotlinize

/-!
# The scope of a moved setter

The modifier of a setter moves to a line of its own at the next line end.  A declaration may open
a bracket on its first line and close it on a later one, and a scope may end on the line of the
last declaration in it; then the new line stands in other brackets than the declaration.

* `enclosing` — the opening tokens around a place in a text.
* `enclosing_eq_iff_nested` — a part of a text leads back to the brackets in front of it if it is
  nested, and only then.
* `exists_of_relocateSettersAfter` — what the pass writes, place by place.
* `enclosing_setter_iff` — a moved modifier stays in its scope if the brackets on the rest of the
  line come in pairs, and only then.
-/

variable {config : Config} {t : Token} {ts openers : List Token} {scopes : List Bracket}

/-! ### The brackets around a place -/

/-- The opening tokens that are open behind a token, the innermost first, where `openers` are
    open in front of it. -/
def openersAfter (openers : List Token) (t : Token) : List Token :=
  match t.kind with
  | .startOfScope => t :: openers
  | .endOfScope => openers.tail
  | _ => openers

/-- The opening tokens that are open behind a text, where `openers` are open in front of it. -/
def enclosing (openers ts : List Token) : List Token := ts.foldl openersAfter openers

@[simp] theorem enclosing_nil (openers : List Token) : enclosing openers [] = openers := rfl

@[simp] theorem enclosing_cons (openers : List Token) (t : Token) (ts : List Token) :
    enclosing openers (t :: ts) = enclosing (openersAfter openers t) ts := rfl

@[simp] theorem enclosing_append (openers as bs : List Token) :
    enclosing openers (as ++ bs) = enclosing (enclosing openers as) bs :=
  List.foldl_append

theorem openersAfter_of_scopeStep (h : t.scopeStep = 0) : openersAfter openers t = openers := by
  unfold Token.scopeStep at h
  unfold openersAfter
  split at h <;> simp_all

theorem enclosing_of_scopeStep (h : ∀ t ∈ ts, t.scopeStep = 0) :
    enclosing openers ts = openers := by
  induction ts with
  | nil => rfl
  | cons t ts ih =>
    rw [List.forall_mem_cons] at h
    rw [enclosing_cons, openersAfter_of_scopeStep h.1, ih h.2]

/-- What is open behind a text was open in front of it, or stands in it. -/
theorem enclosing_sublist (openers ts : List Token) :
    (enclosing openers ts).Sublist (ts.reverse ++ openers) := by
  induction ts generalizing openers with
  | nil => exact .refl _
  | cons t ts ih =>
    rw [enclosing_cons, List.reverse_cons, List.append_assoc, List.singleton_append]
    refine (ih _).trans (List.Sublist.append_left ?_ _)
    unfold openersAfter
    split
    · exact .refl _
    · exact .cons t (List.tail_sublist openers)
    · exact .cons t (.refl _)

/-- A text that can be read by itself changes nothing of what is open around it. -/
theorem exists_enclosing_append {scopes' : List Bracket}
    (h : openScopes scopes ts = some scopes') (hlength : openers.length = scopes.length) :
    ∃ openers', openers'.length = scopes'.length ∧
      ∀ outer, enclosing (openers ++ outer) ts = openers' ++ outer := by
  induction ts generalizing scopes openers with
  | nil =>
    obtain rfl : scopes = scopes' := Option.some.inj h
    exact ⟨openers, hlength, fun _ => rfl⟩
  | cons t ts ih =>
    rw [openScopes_cons, Option.bind_eq_some_iff] at h
    obtain ⟨between, ht, hts⟩ := h
    obtain ⟨b, ho, rfl⟩ | ⟨b, hc, rfl⟩ | ⟨hz, rfl⟩ := scopesAfter_eq_some ht
    · have hpushed : (t :: openers).length = (b :: scopes).length := by simp [hlength]
      obtain ⟨openers', hlength', houter⟩ := ih hts hpushed
      refine ⟨openers', hlength', fun outer => ?_⟩
      rw [enclosing_cons, ← houter, openersAfter, (Token.is_iff.1 ho).1]
      rfl
    · obtain _ | ⟨opener, openers⟩ := openers
      · cases hlength
      · obtain ⟨openers', hlength', houter⟩ := ih hts (Nat.succ.inj hlength)
        refine ⟨openers', hlength', fun outer => ?_⟩
        rw [enclosing_cons, ← houter, openersAfter, (Token.is_iff.1 hc).1]
        rfl
    · obtain ⟨openers', hlength', houter⟩ := ih hts hlength
      refine ⟨openers', hlength', fun outer => ?_⟩
      rw [enclosing_cons, ← houter, openersAfter_of_scopeStep hz]

theorem exists_enclosing {inner : List Bracket} (h : openScopes [] ts = some inner) :
    ∃ openers, openers.length = inner.length ∧ ∀ outer, enclosing outer ts = openers ++ outer :=
  exists_enclosing_append h List.length_nil

/-- A text that cannot be read by itself closes a bracket that was opened in front of it. -/
theorem exists_closer_of_openScopes {inner outer out : List Bracket}
    (hnone : openScopes inner ts = none) (h : openScopes (inner ++ outer) ts = some out) :
    ∃ front closer behind, ts = front ++ closer :: behind ∧
      openScopes inner front = some [] ∧ closer.kind = .endOfScope := by
  induction ts generalizing inner with
  | nil => cases hnone
  | cons t ts ih =>
    rw [openScopes_cons, Option.bind_eq_some_iff] at h
    obtain ⟨between, ht, hts⟩ := h
    have hstep : ∀ inner', scopesAfter inner t = some inner' → between = inner' ++ outer →
        ∃ front closer behind, t :: ts = front ++ closer :: behind ∧
          openScopes inner front = some [] ∧ closer.kind = .endOfScope := by
      rintro inner' ht' rfl
      rw [openScopes_cons, ht', Option.bind_some] at hnone
      obtain ⟨front, closer, behind, rfl, hfront, hkind⟩ := ih hnone hts
      exact ⟨t :: front, closer, behind, rfl, by rw [openScopes_cons, ht']; exact hfront, hkind⟩
    obtain ⟨b, ho, hbetween⟩ | ⟨b, hc, hbetween⟩ | ⟨hz, hbetween⟩ := scopesAfter_eq_some ht
    · exact hstep (b :: inner) (scopesAfter_of_opens ho) hbetween
    · obtain ⟨rfl, -⟩ | ⟨inner', rfl, rfl⟩ := List.append_eq_cons_iff.1 hbetween
      · exact ⟨[], t, ts, rfl, rfl, (Token.is_iff.1 hc).1⟩
      · exact hstep inner' (scopesAfter_of_closes hc) rfl
    · exact hstep inner (scopesAfter_of_scopeStep hz) hbetween

/-- **A part of a text leads back to the brackets in front of it exactly if it is nested**, for a
    bracket that it closes does not come back. -/
theorem enclosing_eq_iff_nested {out : List Bracket} (hread : openScopes scopes ts = some out)
    (hlength : openers.length = scopes.length) (hnodup : (openers.reverse ++ ts).Nodup) :
    enclosing openers ts = openers ↔ Nested ts := by
  obtain ⟨hopeners, -, hapart⟩ := List.nodup_append.1 hnodup
  rw [List.nodup_reverse] at hopeners
  constructor
  · intro heq
    cases hself : openScopes [] ts with
    | some inner =>
      obtain ⟨openers', hlength', houter⟩ := exists_enclosing hself
      have hback := houter openers
      rw [heq] at hback
      obtain rfl : openers' = [] := List.append_left_eq_self.1 hback.symm
      rw [Nested, hself, List.eq_nil_of_length_eq_zero hlength'.symm]
    | none =>
      obtain ⟨front, closer, behind, rfl, hfront, hkind⟩ :=
        exists_closer_of_openScopes hself hread
      obtain _ | ⟨opener, openers⟩ := openers
      · -- Nothing is open, so the text was read by itself.
        obtain rfl := List.eq_nil_of_length_eq_zero hlength.symm
        rw [hself] at hread
        cases hread
      · exfalso
        obtain ⟨openers', hlength', houter⟩ := exists_enclosing hfront
        obtain rfl := List.eq_nil_of_length_eq_zero hlength'
        have hfront' := houter (opener :: openers)
        rw [List.nil_append] at hfront'
        rw [enclosing_append, hfront', enclosing_cons, openersAfter, hkind] at heq
        have hmem : opener ∈ behind.reverse ++ openers :=
          (enclosing_sublist openers behind).mem (heq ▸ List.mem_cons_self)
        rcases List.mem_append.1 hmem with hmem | hmem
        · refine hapart opener (by simp) opener ?_ rfl
          exact List.mem_append_right _ (List.mem_cons_of_mem _ (List.mem_reverse.1 hmem))
        · exact (List.nodup_cons.1 hopeners).1 hmem
  · intro hnested
    obtain ⟨openers', hlength', houter⟩ := exists_enclosing hnested
    obtain rfl := List.eq_nil_of_length_eq_zero hlength'
    exact houter openers

/-! ### The pass -/

/-- A token that a text lacks cuts it with that token behind it in one way. -/
theorem eq_or_exists_of_append_cons {as bs xs ys : List Token} (hx : t ∉ xs)
    (h : xs ++ t :: ys = as ++ t :: bs) :
    as = xs ∨ ∃ more, as = xs ++ t :: more ∧ ys = more ++ t :: bs := by
  rcases List.append_eq_append_iff.1 h with ⟨more, rfl, hrest⟩ | ⟨more, rfl, hrest⟩
  · cases more with
    | nil => exact .inl (List.append_nil xs)
    | cons u more =>
      obtain ⟨rfl, hys⟩ := List.cons.inj hrest
      exact .inr ⟨more, rfl, hys⟩
  · cases more with
    | nil => exact .inl (List.append_nil as).symm
    | cons u more =>
      obtain ⟨rfl, -⟩ := List.cons.inj hrest
      exact absurd (List.mem_append_right as List.mem_cons_self) hx

/-- What the pass takes out of a text opens nothing that it does not close. -/
theorem exists_of_restricted? {declaration : List Token}
    (h : restricted? ts = some declaration) :
    ∃ taken, ts = taken ++ declaration ∧ ∀ openers, enclosing openers taken = openers := by
  obtain ⟨before, opener, word, closer, behind, rfl, hb, ho, hw, hc, hs, -⟩ :=
    restricted?_eq_some h
  refine ⟨before ++ opener :: word :: closer :: behind, by simp, fun openers => ?_⟩
  have hspacing : ∀ us : List Token, (∀ u ∈ us, u.isSpacing = true) →
      enclosing openers us = openers := fun us hus =>
    enclosing_of_scopeStep fun u hu => scopeStep_of_isTrivia (u.isTrivia_of_isSpacing (hus u hu))
  have hopener : openersAfter openers opener = opener :: openers := by
    rw [openersAfter, (Token.is_iff.1 ho).1]
  have hword : openersAfter (opener :: openers) word = opener :: openers :=
    openersAfter_of_scopeStep (scopeStep_of_is hw (by decide) (by decide))
  have hcloser : openersAfter (opener :: openers) closer = openers := by
    rw [openersAfter, (Token.is_iff.1 hc).1]
    rfl
  simp [hspacing before hb, hspacing behind hs, hopener, hword, hcloser]

/-- The line of a setter holds no bracket. -/
theorem enclosing_setterLine (head? : Option Token) {modifier : Token} {after : List Token}
    (hm : modifier.isKeyword = true) (ha : after.head?.all Token.isLinebreak = true)
    (openers : List Token) :
    enclosing openers (setterLine config head? modifier after) = openers := by
  have hlineEnd := isTrivia_of_isLinebreak _ (isLinebreak_lineEnd ha)
  refine enclosing_of_scopeStep ?_
  simp only [setterLine, List.forall_mem_cons]
  exact ⟨scopeStep_of_isTrivia hlineEnd, rfl, scopeStep_of_isKeyword hm, rfl, rfl,
    List.forall_mem_nil _⟩

/-- The `set` of a line that the pass writes is the first one that has no place. -/
theorem set_not_mem_setterLine {line : List Token} {lineEnd modifier : Token} (indent : String)
    (hline : ∀ u ∈ line, u.isPlaced = true) (hend : lineEnd.isLinebreak = true)
    (hm : modifier.isPlaced = true) :
    Token.identifier "set" ∉ line ++ [lineEnd, .whitespace indent, modifier, .space] := by
  intro hmem
  simp only [List.mem_append, List.mem_cons, List.not_mem_nil, or_false] at hmem
  rcases hmem with hmem | rfl | hmem | rfl | hmem
  · cases hline _ hmem
  · cases hend
  · cases hmem
  · cases hm
  · cases hmem

/-- **Where the pass writes.**  Behind tokens `written` that stand for the tokens `pre` of the
    text, each `set` of the pass follows a modifier that stood in front of `(set)`, and what is
    open there is what is open behind the rest of the line of the declaration. -/
theorem exists_of_relocateSettersAfter (head? : Option Token) (pre written : List Token)
    (hplaced : ∀ t ∈ ts, t.isPlaced = true) (hopen : enclosing [] written = enclosing [] pre)
    {as bs : List Token}
    (h : (relocateSettersAfter config head? ts).tokens = as ++ .identifier "set" :: bs) :
    ∃ a m c d declaration, as = a ++ [m, .space] ∧ ts = c ++ m :: d ∧ m.isKeyword = true ∧
      restricted? d = some declaration ∧
      enclosing [] (written ++ a)
        = enclosing (enclosing [] (pre ++ c)) (declaration.takeWhile fun u => !u.isLinebreak) := by
  fun_induction relocateSettersAfter config head? ts generalizing pre written as with
  | case1 => simp at h
  | case2 head? t ts declaration hr line after ih =>
    obtain ⟨hm, hd⟩ : t.isKeyword = true ∧ restricted? ts = some declaration :=
      Option.ite_none_right_eq_some.1 hr
    have hend : after.head?.all Token.isLinebreak = true := head?_dropWhile_isLinebreak declaration
    have hsplit : line ++ after = declaration := List.takeWhile_append_dropWhile
    obtain ⟨taken, rfl, htakenStep⟩ := exists_of_restricted? hd
    rw [← hsplit] at hplaced
    simp only [List.forall_mem_cons, List.forall_mem_append] at hplaced
    obtain ⟨ht, htaken, hline, hafter⟩ := hplaced
    have hlineStep : ∀ openers, enclosing openers (setterLine config head? t after) = openers :=
      enclosing_setterLine head? hm hend
    have hlineEnd := isLinebreak_lineEnd hend
    rw [Edited.tokens_counted, Edited.tokens_append] at h
    unfold setterLine at h hlineStep
    generalize after.head?.getD .newline = lineEnd at h hlineEnd hlineStep
    generalize indentText head? ++ config.indentUnit = indent at h hlineStep
    have hnot : Token.identifier "set" ∉ line ++ [lineEnd, .whitespace indent, t, .space] :=
      set_not_mem_setterLine indent hline hlineEnd ht
    have hcut : (line ++ [lineEnd, .whitespace indent, t, .space])
        ++ .identifier "set" :: (relocateSettersAfter config none after).tokens
          = as ++ .identifier "set" :: bs := by
      simpa using h
    have hfront : enclosing [] (written ++ (line ++ [lineEnd, .whitespace indent]))
        = enclosing (enclosing [] pre) line := by
      have hneutral : ∀ u ∈ [lineEnd, Token.whitespace indent], u.scopeStep = 0 := by
        simp only [List.forall_mem_cons]
        exact ⟨scopeStep_of_isTrivia (isTrivia_of_isLinebreak _ hlineEnd), rfl,
          List.forall_mem_nil _⟩
      rw [enclosing_append, enclosing_append, enclosing_of_scopeStep hneutral, hopen]
    -- The `set` is that of this line, or the pass writes it behind the line.
    obtain rfl | ⟨more, rfl, hrest⟩ := eq_or_exists_of_append_cons hnot hcut
    · exact ⟨line ++ [lineEnd, .whitespace indent], t, [], _, declaration, by simp, rfl,
        hm, hd, by simpa using hfront⟩
    · have hopen' : enclosing [] (written ++ (line ++ [lineEnd, .whitespace indent, t, .space,
            .identifier "set"])) = enclosing [] (pre ++ t :: (taken ++ line)) := by
        have htStep : openersAfter (enclosing [] pre) t = enclosing [] pre :=
          openersAfter_of_scopeStep (scopeStep_of_isKeyword hm)
        rw [enclosing_append, enclosing_append, hlineStep, hopen, enclosing_append, enclosing_cons,
          htStep, enclosing_append, htakenStep]
      obtain ⟨a, m, c, d, declaration', hmore, hbehind, hm', hd', heq⟩ :=
        ih _ _ hafter hopen' hrest
      refine ⟨line ++ [lineEnd, .whitespace indent, t, .space] ++ .identifier "set" :: a, m,
        t :: (taken ++ (line ++ c)), d, declaration', ?_, ?_, hm', hd', ?_⟩
      · simp [hmore]
      · rw [← hsplit, hbehind]
        simp
      · simpa using heq
  | case3 head? t ts hr ih =>
    rw [List.forall_mem_cons] at hplaced
    rw [Edited.tokens_cons] at h
    obtain ⟨rfl, hcons⟩ | ⟨as, rfl, htokens⟩ := List.cons_eq_append_iff.1 h
    · -- The tokens of the text have places, and the word has none.
      obtain ⟨rfl, -⟩ := List.cons.inj hcons
      cases hplaced.1
    · have hopen' : enclosing [] (written ++ [t]) = enclosing [] (pre ++ [t]) := by
        simp [hopen]
      obtain ⟨a, m, c, d, declaration, rfl, rfl, hm, hd, heq⟩ := ih _ _ hplaced.2 hopen' htokens
      refine ⟨t :: a, m, t :: c, d, declaration, rfl, rfl, hm, hd, ?_⟩
      simpa using heq

/-- In a nested text, the rest of the line of a declaration leads back to what is open in front of
    its modifier exactly if it is nested. -/
theorem enclosing_line_iff {c d declaration : List Token} {m : Token}
    (hnested : Nested (c ++ m :: d)) (hnodup : (c ++ m :: d).Nodup) (hm : m.isKeyword = true)
    (hd : restricted? d = some declaration) :
    enclosing (enclosing [] c) (declaration.takeWhile fun u => !u.isLinebreak) = enclosing [] c
      ↔ Nested (declaration.takeWhile fun u => !u.isLinebreak) := by
  rw [Nested, openScopes_append, Option.bind_eq_some_iff] at hnested
  obtain ⟨scopes, hc, hrest⟩ := hnested
  -- The modifier and what the pass takes out behind it leave the same open.
  rw [openScopes_cons, scopesAfter_of_scopeStep (scopeStep_of_isKeyword hm), Option.bind_some,
    ← openScopes_of_restricted? hd,
    ← List.takeWhile_append_dropWhile (p := fun u : Token => !u.isLinebreak) (l := declaration),
    openScopes_append, Option.bind_eq_some_iff] at hrest
  obtain ⟨out, hline, -⟩ := hrest
  obtain ⟨openers, hlength, hopeners⟩ := exists_enclosing hc
  have hopen : enclosing [] c = openers := by simpa using hopeners []
  have hsublist : (enclosing [] c).reverse.Sublist c := by
    simpa using (enclosing_sublist [] c).reverse
  have hpart : (declaration.takeWhile fun u => !u.isLinebreak).Sublist (m :: d) := by
    obtain ⟨taken, rfl, -⟩ := exists_of_restricted? hd
    exact ((List.takeWhile_sublist _).trans (List.sublist_append_right taken _)).trans
      (List.sublist_cons_self m _)
  exact enclosing_eq_iff_nested hline (hopen ▸ hlength)
    (hnodup.sublist (hsublist.append hpart))

/-- **When a moved modifier stays in its scope.**  In a source text whose brackets are properly
    nested, each modifier on a line that the pass writes was taken from in front of a declaration;
    and it stands in the same brackets as there if and only if the brackets on the rest of the line
    of that declaration come in pairs. -/
theorem enclosing_setter_iff (config : Config) {source : String} (h : tokenize source = .ok ts)
    (hnested : Nested ts) {a b : List Token} {m : Token}
    (hout : (relocateSetters config ts).tokens = a ++ m :: .space :: .identifier "set" :: b) :
    m ∈ ts ∧ ∀ c d, ts = c ++ m :: d → ∃ declaration, restricted? d = some declaration ∧
      (enclosing [] a = enclosing [] c
        ↔ Nested (declaration.takeWhile fun u => !u.isLinebreak)) := by
  have hnodup : ts.Nodup :=
    (precedes_of_tokenize h).imp fun hpos heq => hpos.ne (congrArg Token.pos heq)
  have hcut : (relocateSettersAfter config none ts).tokens
      = (a ++ [m, .space]) ++ .identifier "set" :: b := by
    simpa [relocateSetters] using hout
  obtain ⟨a', m', c', d', declaration, ha, hplace, hm, hd, heq⟩ :=
    exists_of_relocateSettersAfter none [] [] (isPlaced_of_tokenize h) rfl hcut
  obtain ⟨rfl, hcons⟩ := List.append_inj' ha rfl
  obtain rfl : m = m' := by simpa using hcons
  refine ⟨hplace ▸ List.mem_append_right c' List.mem_cons_self, fun c d hts => ?_⟩
  -- The modifier stands at one place of the text only.
  subst hts
  have hnot : m ∉ c ++ d := (List.nodup_cons.1 (List.nodup_middle.1 hnodup)).1
  rw [List.mem_append, not_or] at hnot
  obtain ⟨rfl, rfl⟩ : c = c' ∧ d = d' := by
    obtain rfl | ⟨more, rfl, rfl⟩ := eq_or_exists_of_append_cons hnot.1 hplace
    · exact ⟨rfl, by simpa using hplace⟩
    · exact absurd (List.mem_append_right more List.mem_cons_self) hnot.2
  refine ⟨declaration, hd, ?_⟩
  rw [List.nil_append, List.nil_append] at heq
  rw [heq]
  exact enclosing_line_iff hnested hnodup hm hd

/-- A declaration in braces, with a closure on its line. -/
def closureOnLine : List Token :=
  [⟨.startOfScope, "\x7b", ⟨1, 1⟩⟩, ⟨.keyword, "private", ⟨1, 2⟩⟩, ⟨.startOfScope, "(", ⟨1, 9⟩⟩,
    ⟨.identifier, "set", ⟨1, 10⟩⟩, ⟨.endOfScope, ")", ⟨1, 13⟩⟩, ⟨.keyword, "var", ⟨1, 14⟩⟩,
    ⟨.whitespace, " ", ⟨1, 17⟩⟩, ⟨.identifier, "a", ⟨1, 18⟩⟩, ⟨.symbol, "=", ⟨1, 19⟩⟩,
    ⟨.startOfScope, "\x7b", ⟨1, 20⟩⟩, ⟨.endOfScope, "\x7d", ⟨1, 21⟩⟩, ⟨.linebreak, "\n", ⟨1, 22⟩⟩,
    ⟨.endOfScope, "\x7d", ⟨2, 1⟩⟩]

/-- The line behind a closure that ends on its line stands in the braces of the declaration. -/
theorem enclosing_setter_closure_on_line :
    tokenize "\x7bprivate(set)var a=\x7b\x7d\n\x7d" = .ok closureOnLine ∧
      ∃ a b, (relocateSetters .default closureOnLine).tokens
          = a ++ ⟨.keyword, "private", ⟨1, 2⟩⟩ :: .space :: .identifier "set" :: b ∧
        enclosing [] a = [⟨.startOfScope, "\x7b", ⟨1, 1⟩⟩] := by
  have htokenize : tokenize "\x7bprivate(set)var a=\x7b\x7d\n\x7d" = .ok closureOnLine := by
    cbv
  have hout : (relocateSetters .default closureOnLine).tokens
      = (closureOnLine.take 1 ++ (closureOnLine.drop 5).take 7 ++ [.whitespace "\t"])
        ++ ⟨.keyword, "private", ⟨1, 2⟩⟩ :: .space :: .identifier "set"
          :: closureOnLine.drop 11 := by
    cbv
  have hnested : Nested closureOnLine := by
    decide
  obtain ⟨-, hscope⟩ := enclosing_setter_iff .default htokenize hnested hout
  obtain ⟨declaration, hd, hiff⟩ := hscope (closureOnLine.take 1) _ rfl
  obtain rfl : closureOnLine.drop 5 = declaration := Option.some.inj hd
  refine ⟨htokenize, _, _, hout, hiff.2 ?_⟩
  decide

/-- A declaration with a closure that ends on a later line. -/
def closureOverLines : List Token :=
  [⟨.keyword, "private", ⟨1, 1⟩⟩, ⟨.startOfScope, "(", ⟨1, 8⟩⟩,
    ⟨.identifier, "set", ⟨1, 9⟩⟩, ⟨.endOfScope, ")", ⟨1, 12⟩⟩, ⟨.keyword, "var", ⟨1, 13⟩⟩,
    ⟨.whitespace, " ", ⟨1, 16⟩⟩, ⟨.identifier, "a", ⟨1, 17⟩⟩, ⟨.symbol, "=", ⟨1, 18⟩⟩,
    ⟨.startOfScope, "\x7b", ⟨1, 19⟩⟩, ⟨.linebreak, "\n", ⟨1, 20⟩⟩, ⟨.endOfScope, "\x7d", ⟨2, 1⟩⟩]

/-- **The modifier of a setter lands in the closure** that its declaration starts with. -/
theorem not_enclosing_setter_closure_over_lines :
    ¬ ∀ (config : Config) (source : String) (ts : List Token), tokenize source = .ok ts →
      Nested ts → ∀ (a b : List Token) (m : Token),
        (relocateSetters config ts).tokens = a ++ m :: .space :: .identifier "set" :: b →
        ∀ c d, ts = c ++ m :: d → enclosing [] a = enclosing [] c := by
  intro hall
  have htokenize : tokenize "private(set)var a=\x7b\n\x7d" = .ok closureOverLines := by
    cbv
  have hout : (relocateSetters .default closureOverLines).tokens
      = ((closureOverLines.drop 4).take 6 ++ [.whitespace "\t"])
        ++ ⟨.keyword, "private", ⟨1, 1⟩⟩ :: .space :: .identifier "set"
          :: closureOverLines.drop 9 := by
    cbv
  have hnested : Nested closureOverLines := by
    decide
  have hsame := hall _ _ _ htokenize hnested _ _ _ hout [] _ rfl
  exact absurd hsame (by decide)

end Kotlinize
