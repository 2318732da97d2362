import Kotlinize.Proofs.Seam.Accessors

namespace Kotlinize

/-!
# The seams of the other two passes

The pass for setters goes on with what it has written in front of it, and makes one seam for each
setter that it moves.  The pass for late-initialised properties makes one for each mark that it
takes away.  Neither changes what stands around a seam that it has made.

* `setterSeams`, `apart_relocateSettersAfter_iff` — setters.
* `markSeams`, `apart_markLateInit_tokens_iff` — late-initialised properties.
-/

variable {config : Config} {as bs ts : List Token}

/-! ### The pass for setters -/

/-- The seams that the pass for setters makes behind the tokens `written`: each in front of a
    line that has lost the modifier in front of it. -/
def setterSeams (config : Config) (written : List Token) : List Token → List Seam
  | [] => []
  | t :: ts =>
    match _h : if t.isKeyword then restricted? ts else none with
    | some declaration =>
      let line := declaration.takeWhile fun u => !u.isLinebreak
      let after := declaration.dropWhile fun u => !u.isLinebreak
      ⟨written, line⟩ :: setterSeams config
        (written ++ (line ++ setterLine config (lineHead? written) t after)) after
    | none => setterSeams config (written ++ [t]) ts
termination_by ts => ts.length
decreasing_by
  · split at _h
    · have := length_lt_of_restricted? _h
      have := (List.dropWhile_sublist (fun u : Token => !u.isLinebreak)
        (l := declaration)).length_le
      simp only [List.length_cons]
      omega
    · cases _h
  · exact Nat.lt_succ_self _

theorem setterSeams_of_some {written declaration : List Token} {t : Token}
    (h : (if t.isKeyword then restricted? ts else none) = some declaration) :
    setterSeams config written (t :: ts)
      = ⟨written, declaration.takeWhile fun u => !u.isLinebreak⟩ :: setterSeams config
          (written ++ (declaration.takeWhile (fun u => !u.isLinebreak) ++ setterLine config
            (lineHead? written) t (declaration.dropWhile fun u => !u.isLinebreak)))
          (declaration.dropWhile fun u => !u.isLinebreak) := by
  rw [setterSeams]
  split
  · rename_i h'
    rw [h] at h'
    cases h'
    rfl
  · rename_i h'
    rw [h] at h'
    cases h'

theorem setterSeams_of_none {written : List Token} {t : Token}
    (h : (if t.isKeyword then restricted? ts else none) = none) :
    setterSeams config written (t :: ts) = setterSeams config (written ++ [t]) ts := by
  rw [setterSeams]
  split
  · rename_i h'
    rw [h] at h'
    cases h'
  · rfl

/-- **What the pass for setters leaves is apart** if and only if all its seams are. -/
theorem apart_relocateSettersAfter_iff (written ts : List Token) (head? : Option Token)
    (hh : KnowsLine written head? ts) (hr : Readable (written ++ ts))
    (ha : apart [] (written ++ ts) = true) :
    apart [] (written ++ (relocateSettersAfter .default head? ts).tokens) = true
      ↔ ∀ s ∈ setterSeams .default written ts, s.apart = true := by
  fun_induction relocateSettersAfter .default head? ts generalizing written with
  | case1 =>
    rw [setterSeams]
    exact iff_of_true ha (List.forall_mem_nil _)
  | case2 head? t ts declaration hd line after ih =>
    have hm : t.isKeyword = true ∧ restricted? ts = some declaration :=
      Option.ite_none_right_eq_some.1 hd
    have hhead : head? = lineHead? written := hh.eq_of_isKeyword hm.1
    have hsplit : line ++ after = declaration := List.takeWhile_append_dropWhile
    have hend : after.head?.all Token.isLinebreak = true := head?_dropWhile_isLinebreak declaration
    have hrs : restricted? ts = some (line ++ after) := by
      rw [hsplit]
      exact hm.2
    -- One rewrite makes one seam; the pass goes on behind the line.
    have hseam := apart_relocateSetter_iff hrs hend hr ha
    have hreadable : Readable (written ++ (line
        ++ (setterLine .default (lineHead? written) t after ++ after))) :=
      (Rewrite.relocateSetter written t ts line after hm.1 hrs
        (fun u hu => by simpa using of_mem_takeWhile hu) hend).readable hr
    have hsetter : Readable (setterLine .default (lineHead? written) t after) := by
      simp only [readable_append_iff] at hreadable
      exact hreadable.2.2.1
    have hlist : written ++ (line ++ (setterLine .default (lineHead? written) t after ++ after))
        = written ++ (line ++ setterLine .default (lineHead? written) t after) ++ after := by simp
    rw [setterSeams_of_some hd, List.forall_mem_cons, ← hseam]
    show apart [] (written ++ ((line ++ setterLine .default head? t after)
      ++ (relocateSettersAfter .default none after).tokens)) = true ↔ _
    rw [hhead, ← List.append_assoc written]
    rw [hlist] at hreadable
    have hafter := ih (written ++ (line ++ setterLine .default (lineHead? written) t after))
      (Or.inr hend) hreadable
    constructor
    · intro hpass
      -- The line of the setter keeps what follows it away from the seam.
      have hfront := hpass
      rw [List.append_assoc, apart_append_iff, List.append_nil, List.append_assoc, spelling_append,
        apart_append_of_halts (halts_setterLine hsetter hend _)] at hfront
      have hdone := hseam.2 hfront.1
      refine ⟨hdone, (hafter ?_).1 hpass⟩
      rw [← hlist]
      exact hdone
    · rintro ⟨hdone, hrest⟩
      refine (hafter ?_).2 hrest
      rw [← hlist]
      exact hdone
  | case3 head? t ts hd ih =>
    have hlist : written ++ t :: ts = written ++ [t] ++ ts := by simp
    rw [hlist] at hr ha
    rw [setterSeams_of_none hd, ← ih (written ++ [t]) hh.next hr ha]
    show apart [] (written ++ t :: (relocateSettersAfter .default (nextLineHead head? t) ts).tokens)
      = true ↔ _
    rw [List.append_assoc]
    rfl

/-! ### The pass for late-initialised properties -/

/-- The seams that the pass for late-initialised properties makes. -/
def markSeams : List Token → List Seam
  | [] => []
  | t :: ts =>
    match _h : if isVariableKeyword t then unmarked? ts else none with
    | some us => markSeam ts ++ markSeams us
    | none => markSeams ts
termination_by ts => ts.length
decreasing_by
  · split at _h
    · have := length_of_unmarked? _h
      simp only [List.length_cons]
      omega
    · cases _h
  · exact Nat.lt_succ_self _

theorem markSeams_of_some {t : Token} {us : List Token}
    (h : (if isVariableKeyword t then unmarked? ts else none) = some us) :
    markSeams (t :: ts) = markSeam ts ++ markSeams us := by
  rw [markSeams]
  split
  · rename_i h'
    rw [h] at h'
    cases h'
    rfl
  · rename_i h'
    rw [h] at h'
    cases h'

theorem markSeams_of_none {t : Token}
    (h : (if isVariableKeyword t then unmarked? ts else none) = none) :
    markSeams (t :: ts) = markSeams ts := by
  rw [markSeams]
  split
  · rename_i h'
    rw [h] at h'
    cases h'
  · rfl

/-- A modifier starts with another letter than the keyword in whose place it stands. -/
theorem sameStart_markLateInit (ts : List Token) :
    SameStart (spelling (markLateInit ts).tokens) (spelling ts) := by
  fun_induction markLateInit ts with
  | case1 => exact .refl _
  | case2 t ts us hu ih =>
    have hk : isVariableKeyword t = true := (Option.ite_none_right_eq_some.1 hu).1
    obtain ⟨more, hmore⟩ := exists_spelling_isVariableKeyword hk ts
    obtain ⟨more', hmore'⟩ : ∃ more', spelling (lateInitModifier ++ [t] ++ (markLateInit us).tokens)
        = 'l' :: more' := ⟨_, rfl⟩
    show SameStart (spelling (lateInitModifier ++ [t] ++ (markLateInit us).tokens)) _
    rw [hmore, hmore']
    exact .initial [] 'l' 'v' more' more (by decide) (by decide)
  | case3 t ts hu ih =>
    show SameStart (spelling (t :: (markLateInit ts).tokens)) _
    rw [spelling_cons, spelling_cons]
    exact ih.append _

/-- The pass leaves tokens without a keyword alone. -/
theorem markLateInit_append (h : ∀ t ∈ as, isVariableKeyword t = false) (bs : List Token) :
    markLateInit (as ++ bs) = (markLateInit bs).append as := by
  induction as with
  | nil => rfl
  | cons t as ih =>
    have ht := h t List.mem_cons_self
    have hnone : (if isVariableKeyword t then unmarked? (as ++ bs) else none) = none := by
      rw [ht]
      rfl
    rw [List.cons_append, markLateInit]
    split
    · rename_i h'
      rw [hnone] at h'
      cases h'
    · rw [ih fun u hu => h u (List.mem_cons_of_mem t hu)]
      rfl

theorem isVariableKeyword_of_isTypeToken {t : Token}
    (h : isTypeToken lateInitTypeMarks t = true) : isVariableKeyword t = false := by
  apply isVariableKeyword_of_isInert
  rw [isTypeToken, Bool.or_eq_true] at h
  rcases h with h | h
  · exact isInert_of_isIdentifier h
  · apply isInert_of_mark
    have hall : (lateInitTypeMarks.all computedTypeMarks.contains) = true := by decide
    exact List.all_eq_true.1 hall _ (List.contains_iff_mem.1 h)

/-- The seam of a property is still there after the pass. -/
theorem apart_markSeam_of_markLateInit {us : List Token} (hu : unmarked? ts = some us)
    (ha : apart [] (markLateInit us).tokens = true) : ∀ s ∈ markSeam ts, s.apart = true := by
  obtain ⟨n, type, mark, rest, hn, -, rfl, htype, hseam⟩ := markSeam_eq hu
  have hplain : ∀ t ∈ n.lead ++ type, isVariableKeyword t = false := by
    rw [List.forall_mem_append]
    exact ⟨fun t ht => isVariableKeyword_of_isInert (isInert_typedName hn t ht),
      fun t ht => isVariableKeyword_of_isTypeToken (htype t ht)⟩
  rw [← List.append_assoc, markLateInit_append hplain, Edited.tokens_append, apart_append_iff,
    List.append_nil, (sameStart_markLateInit _).apart_eq] at ha
  rw [hseam, List.forall_mem_singleton]
  exact ha.1

/-- **What the pass for late-initialised properties leaves is apart** if and only if all its
    seams are. -/
theorem apart_markLateInit_tokens_iff (hr : Readable ts) (ha : apart [] ts = true) :
    apart [] (markLateInit ts).tokens = true ↔ ∀ s ∈ markSeams ts, s.apart = true := by
  fun_induction markLateInit ts with
  | case1 =>
    rw [markSeams]
    exact iff_of_true rfl (List.forall_mem_nil _)
  | case2 t ts us hu ih =>
    have hk : isVariableKeyword t = true ∧ unmarked? ts = some us :=
      Option.ite_none_right_eq_some.1 hu
    have hreadable : Readable (lateInitModifier ++ t :: us) :=
      (Rewrite.markLateInit [] t ts us hk.1 hk.2).readable hr
    rw [readable_cons_iff] at hr
    have hproperty := apart_markLateInit_iff hk.1 hk.2 hr.2 ha
    have hus : Readable us := (readable_cons_iff.1 (readable_append_iff.1 hreadable).2).2
    rw [markSeams_of_some hu, List.forall_mem_append]
    show apart [] (.keyword "lateinit" :: .space :: t :: (markLateInit us).tokens) = true ↔ _
    simp only [apart_cons_iff, List.append_nil]
    rw [and_iff_right (runsOn_of_halts rfl _), and_iff_right (runsOn_of_isSpacing rfl _),
      (sameStart_markLateInit _).runsOn_eq]
    constructor
    · -- The seam of this property would not be mended by the rest of the pass.
      rintro ⟨hrun, hpass⟩
      have hseam := apart_markSeam_of_markLateInit hk.2 hpass
      have hedited := apart_right (hproperty.2 hseam)
      exact ⟨hseam, (ih hus (apart_cons_iff.1 hedited).2).1 hpass⟩
    · rintro ⟨hseam, hrest⟩
      have hedited := apart_right (hproperty.2 hseam)
      rw [apart_cons_iff, List.append_nil] at hedited
      exact ⟨hedited.1, (ih hus hedited.2).2 hrest⟩
  | case3 t ts hu ih =>
    rw [readable_cons_iff] at hr
    rw [apart_cons_iff, List.append_nil] at ha
    rw [markSeams_of_none hu, ← ih hr.2 ha.2]
    show apart [] (t :: (markLateInit ts).tokens) = true ↔ _
    rw [apart_cons_iff, List.append_nil, (sameStart_markLateInit _).runsOn_eq,
      and_iff_right ha.1]

end Kotlinize
