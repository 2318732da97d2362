import Kotlinize.Stage

namespace Kotlinize

/-!
# Reports

* `StageCount` — how many edits one stage made.
* `Report` — one entry for each stage that ran.
* `Report.total`, `Report.isNoop`, `Report.find?` — what a report tells.
-/

/-- The number of edits that a stage made. -/
structure StageCount where
  stage : Stage
  count : Nat
deriving DecidableEq, Repr

/-- Whether the stage found nothing to edit. -/
def StageCount.isNoop (c : StageCount) : Bool := c.count == 0

/-- The outcome of a run: an entry for each stage that ran, in order. -/
structure Report where
  entries : List StageCount
deriving DecidableEq, Repr

namespace Report

/-- The number of edits of all stages together. -/
def total (r : Report) : Nat := r.entries.foldr (fun c n => c.count + n) 0

/-- Whether no stage found anything to edit. -/
def isNoop (r : Report) : Bool := r.entries.all StageCount.isNoop

/-- The first entry of a stage. -/
def find? (r : Report) (stage : Stage) : Option StageCount :=
  r.entries.find? fun c => c.stage == stage

/-- A report without edits has total 0, and conversely. -/
theorem isNoop_iff_total_eq_zero (r : Report) : r.isNoop = true ↔ r.total = 0 := by
  obtain ⟨entries⟩ := r
  simp only [isNoop, total]
  induction entries with
  | nil => simp
  | cons c entries ih => simp [StageCount.isNoop, ih]

end Report

end Kotlinize
