import Kotlinize.Proofs.LateInit.Marked
import Kotlinize.Proofs.Origin.Provenance
import Kotlinize.Proofs.Reread.Reading

namespace Kotlinize

/-!
# Keywords during a run

Up to the last pass a text has no keywords but those of its source and the one that declares a
constant.  So none of them is the modifier that the last pass writes or can stand in front of a
mark, and a keyword that declares a variable stands at one place of the text only.

* `foreignWords` — what no keyword of a source says.
* `Stage.keywordFree_applyAll` — keywords that the source lacks are not made.
* `MadeFromSource` — what a text has of its source during a run.
* `MadeFromSource.eq_of_append_cons` — a keyword cuts such a text in one way only.
-/

variable {config : Config} {stage : Stage} {v t : Token} {q : Token → Bool}
  {as bs as' bs' ts : List Token}

/-! ### The keywords of a source -/

/-- What no keyword of a source says: the modifier of the last pass, and what its search for a
    mark lets pass. -/
def foreignWords : List String := "lateinit" :: ":" :: lateInitTypeMarks

/-- A keyword is a reserved word, or a name behind a sign. -/
theorem keyword_of_next {c : Char} {cs : List Char} {l : Lexeme} (h : Lexeme.next c cs = .ok l)
    (hk : l.kind = .keyword) :
    (c = '@' ∨ c = '#') ∨ String.ofList (l.text c) ∈ reservedWords := by
  have hr := reading_next c cs
  rw [h] at hr
  generalize hl : Except.ok l = r at hr
  cases hr with
  | lineEnd | blank | lineComment | opener | closer | number | operator =>
    cases hl
    cases hk
  | blockComment | escaped | literal =>
    obtain ⟨k, -, rfl⟩ := eq_of_orFault hl
    cases hk
  | directive hc => exact .inl hc
  | word =>
    cases hl
    right
    rw [← List.contains_iff_mem]
    by_contra hnot
    rw [Bool.not_eq_true] at hnot
    simp only [Lexeme.wordKind] at hk
    rw [if_neg (by simpa [Lexeme.text] using hnot)] at hk
    cases hk
  | unexpected => cases hl

theorem not_mem_foreignWords_of_next {c : Char} {cs : List Char} {l : Lexeme}
    (h : Lexeme.next c cs = .ok l) (hk : l.kind = .keyword) :
    String.ofList (l.text c) ∉ foreignWords := by
  intro hmem
  rcases keyword_of_next h hk with hc | hword
  · -- None of the words starts with a sign.
    have hsigns : ∀ word ∈ foreignWords, word.toList.head? ≠ some '@' ∧
        word.toList.head? ≠ some '#' := by decide
    obtain ⟨hat, hhash⟩ := hsigns _ hmem
    rw [String.toList_ofList] at hat hhash
    rcases hc with rfl | rfl
    · exact hat rfl
    · exact hhash rfl
  · have hnone : ∀ word ∈ foreignWords, word ∉ reservedWords := by decide
    exact hnone _ hmem hword

/-- Whether a token is a keyword that no source has. -/
def isForeignKeyword (t : Token) : Bool := t.isKeyword && foreignWords.contains t.text

theorem isForeignKeyword_of_tokenizeAt {pos : Position} {cs : List Char} {ts : List Token}
    (h : tokenizeAt pos cs = .ok ts) : ∀ t ∈ ts, isForeignKeyword t = false := by
  fun_induction tokenizeAt pos cs generalizing ts with
  | case1 =>
    cases h
    exact List.forall_mem_nil _
  | case2 => cases h
  | case3 pos c cs l hl ih =>
    obtain ⟨us, hus, rfl⟩ := map_eq_ok_iff.1 h
    refine List.forall_mem_cons.2 ⟨?_, ih hus⟩
    rw [Bool.eq_false_iff]
    intro hforeign
    rw [isForeignKeyword, Bool.and_eq_true, Token.isKeyword, beq_iff_eq] at hforeign
    exact not_mem_foreignWords_of_next hl hforeign.1 (List.contains_iff_mem.1 hforeign.2)

/-! ### Keywords are not made -/

/-- A rewrite of all but the last stage makes no keyword of a class without those that edits
    make. -/
theorem Rewrite.keywordFree (h : Rewrite config stage as bs) (hq : Unmade q)
    (hk : ∀ t, q t = true → t.isKeyword = true) (hl : stage ≠ .lateInitProperties)
    (ha : ∀ t ∈ as, q t = false) : ∀ t ∈ bs, q t = false := by
  have hfree : ∀ {ts : List Token}, (∀ t ∈ ts, q t = false) ↔ ts.filter q = [] := by
    simp [List.filter_eq_nil_iff]
  by_cases hs : stage = .restrictedSetters
  · subst hs
    obtain ⟨pre, modifier, taken, line, after, rfl, rfl, -, hend⟩ := h.exists_of_restrictedSetters
    simp only [List.forall_mem_append, List.forall_mem_cons] at ha ⊢
    refine ⟨ha.1, ha.2.2.2.1, ?_, ha.2.2.2.2⟩
    have hspacing : ∀ t, t.isSpacing = true → q t = false := by
      intro t ht
      rw [Bool.eq_false_iff]
      intro hqt
      have hkeyword := isKeyword_eq_false_of_isTrivia (t.isTrivia_of_isSpacing ht)
      rw [hk t hqt] at hkeyword
      cases hkeyword
    -- On the line of the setter only the modifier is a keyword.
    have hline := hspacing _ (isSpacing_of_isLinebreak (isLinebreak_lineEnd hend))
    have hindent := hspacing (.whitespace (indentText (lineHead? pre) ++ config.indentUnit)) rfl
    simp only [setterLine, List.forall_mem_cons]
    exact ⟨hline, hindent, ha.2.1, hq.space, hq.identifier "set",
      List.forall_mem_nil _⟩
  · have hsub := h.filter_sublist hq hs fun hstage => absurd hstage hl
    rw [hfree.1 ha, List.sublist_nil] at hsub
    exact hfree.2 hsub

theorem Stage.keywordFree_applyAll {stages : List Stage} (hl : .lateInitProperties ∉ stages)
    (hq : Unmade q) (hk : ∀ t, q t = true → t.isKeyword = true) (h : ∀ t ∈ ts, q t = false) :
    ∀ t ∈ Stage.applyAll config stages ts, q t = false :=
  Stage.applyAll_preserves stages (fun _ hmem _ _ hr => hr.keywordFree hq hk fun hstage =>
    hl (hstage ▸ hmem)) ts h

theorem unmade_isForeignKeyword : Unmade isForeignKeyword where
  space := by decide
  identifier _ := rfl
  symbol _ := rfl
  opener := by decide
  closer := by decide
  constant := by decide

theorem unmade_isVariableKeyword : Unmade isVariableKeyword where
  space := by decide
  identifier _ := rfl
  symbol _ := rfl
  opener := by decide
  closer := by decide
  constant := by decide

theorem isKeyword_of_isVariableKeyword (h : isVariableKeyword v = true) : v.isKeyword = true := by
  rw [isVariableKeyword, Token.is_iff] at h
  simp [Token.isKeyword, h.1]

/-! ### Texts during a run -/

/-- What a text has of its source up to the last pass: no keyword is foreign, the keywords of
    variables have places, and no two tokens but line ends have the same place. -/
structure MadeFromSource (ts : List Token) : Prop where
  foreign : ∀ t ∈ ts, isForeignKeyword t = false
  placed : ∀ t ∈ ts, isVariableKeyword t = true → t.isPlaced = true
  nodup : (ts.filter Token.isSingle).Nodup

theorem madeFromSource_applyAll {source : String} (h : tokenize source = .ok ts)
    {stages : List Stage} (hl : .lateInitProperties ∉ stages) :
    MadeFromSource (Stage.applyAll config stages ts) where
  foreign := Stage.keywordFree_applyAll hl unmade_isForeignKeyword
    (fun _ ht => (Bool.and_eq_true_iff.1 ht).1) (isForeignKeyword_of_tokenizeAt h)
  placed := by
    have hplaced : ∀ t ∈ Stage.applyAll config stages ts,
        (isVariableKeyword t && !t.isPlaced) = false := by
      refine Stage.keywordFree_applyAll hl
        (unmade_isVariableKeyword.and_right fun t => !t.isPlaced) (fun t ht => ?_) fun t ht => ?_
      · exact isKeyword_of_isVariableKeyword (Bool.and_eq_true_iff.1 ht).1
      · rw [isPlaced_of_tokenize h t ht, Bool.not_true, Bool.and_false]
    intro t ht hv
    have htoken := hplaced t ht
    rwa [hv, Bool.true_and, Bool.not_eq_false'] at htoken
  nodup := List.Nodup.of_map Token.pos (nodup_places_applyAll h stages)

namespace MadeFromSource

theorem isSingle (h : MadeFromSource ts) (ht : t ∈ ts) (hv : isVariableKeyword t = true) :
    t.isSingle = true := by
  have hk := isKeyword_of_isVariableKeyword hv
  rw [Token.isKeyword, beq_iff_eq] at hk
  simp [Token.isSingle, h.placed t ht hv, Token.isLinebreak, hk]

/-- No keyword stands in front of a mark. -/
theorem isHeadToken (h : MadeFromSource ts) :
    ∀ t ∈ ts, t.isKeyword = true → Kotlinize.isHeadToken t = false := by
  intro t ht hk
  refine isHeadToken_eq_false (isTrivia_of_isKeyword hk) ?_ ?_
  · rw [Token.isKeyword, beq_iff_eq] at hk
    simp [Token.isIdentifier, hk]
  · intro hmem
    have hforeign := h.foreign t ht
    rw [isForeignKeyword, hk, Bool.true_and, ← Bool.not_eq_true, List.contains_iff_mem] at hforeign
    exact hforeign (List.mem_cons_of_mem _ hmem)

theorem not_lateinit (h : MadeFromSource ts) : ∀ t ∈ ts, t.is .keyword "lateinit" = false := by
  intro t ht
  rw [Bool.eq_false_iff]
  intro hl
  obtain ⟨hkind, htext⟩ := Token.is_iff.1 hl
  have hforeign := h.foreign t ht
  simp [isForeignKeyword, Token.isKeyword, hkind, htext, foreignWords] at hforeign

/-- The keyword of a variable stands at one place of a text. -/
theorem not_mem (h : MadeFromSource (as ++ v :: bs)) (hv : isVariableKeyword v = true) :
    v ∉ as ∧ v ∉ bs := by
  have hsingle := h.isSingle (List.mem_append_right as List.mem_cons_self) hv
  have hnodup := h.nodup
  rw [List.filter_append, List.filter_cons_of_pos hsingle] at hnodup
  obtain ⟨-, hbs, hdisjoint⟩ := List.nodup_append.1 hnodup
  constructor
  · intro hmem
    exact hdisjoint v (List.mem_filter.2 ⟨hmem, hsingle⟩) v List.mem_cons_self rfl
  · intro hmem
    exact (List.nodup_cons.1 hbs).1 (List.mem_filter.2 ⟨hmem, hsingle⟩)

/-- **The keyword of a variable cuts a text in one way only.** -/
theorem eq_of_append_cons (h : MadeFromSource (as ++ v :: bs)) (hv : isVariableKeyword v = true)
    (heq : as ++ v :: bs = as' ++ v :: bs') : bs = bs' := by
  obtain ⟨has, hbs⟩ := h.not_mem hv
  rcases List.append_eq_append_iff.1 heq with ⟨more, -, hrest⟩ | ⟨more, rfl, hrest⟩
  · cases more with
    | nil => exact (List.cons.inj hrest).2
    | cons u more =>
      obtain ⟨-, rfl⟩ := List.cons.inj hrest
      exact absurd (List.mem_append_right more List.mem_cons_self) hbs
  · cases more with
    | nil => exact (List.cons.inj hrest).2.symm
    | cons u more =>
      obtain ⟨rfl, -⟩ := List.cons.inj hrest
      exact absurd (List.mem_append_right as' List.mem_cons_self) has

end MadeFromSource

end Kotlinize
