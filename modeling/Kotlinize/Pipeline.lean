import Kotlinize.Report

namespace Kotlinize

/-!
# Running stages

No stage may open or close a scope without its partner, so each run is checked.

* `ScopeImbalance` — the stage that did, and the balance before and after it.
* `runStage` — one checked stage.
* `runStages` — stages one after another; the first imbalance ends the run.
* `convertTokens` — all six.
-/

/-- A stage changed the number of opening tokens less the number of closing ones. -/
structure ScopeImbalance where
  stage : Stage
  before : Int
  after : Int
deriving DecidableEq, Repr

/-- The imbalance in words. -/
def ScopeImbalance.message (e : ScopeImbalance) : String :=
  s!"{e.stage.name} changed the scope balance from {e.before} to {e.after}"

/-- Token list and report after some stages. -/
structure Outcome where
  tokens : List Token
  report : Report
deriving DecidableEq, Repr

/-- Runs one stage and checks that it keeps the scope balance. -/
def runStage (config : Config) (stage : Stage) (ts : List Token) :
    Except ScopeImbalance Edited :=
  let e := stage.apply config ts
  if scopeBalance ts = scopeBalance e.tokens then .ok e
  else .error ⟨stage, scopeBalance ts, scopeBalance e.tokens⟩

/-- Runs stages in order, each on what the one before it left. -/
def runStages (config : Config) : List Stage → List Token → Except ScopeImbalance Outcome
  | [], ts => .ok ⟨ts, ⟨[]⟩⟩
  | stage :: stages, ts =>
    match runStage config stage ts with
    | .error e => .error e
    | .ok e =>
      match runStages config stages e.tokens with
      | .error e => .error e
      | .ok o => .ok ⟨o.tokens, ⟨⟨stage, e.count⟩ :: o.report.entries⟩⟩

/-- Runs all stages. -/
def convertTokens (config : Config) (ts : List Token) : Except ScopeImbalance Outcome :=
  runStages config Stage.all ts

/-- A finished run has one entry for each stage, in order. -/
theorem stages_of_runStages {config : Config} {stages : List Stage} {ts : List Token}
    {o : Outcome} (h : runStages config stages ts = .ok o) :
    o.report.entries.map StageCount.stage = stages := by
  induction stages generalizing ts o with
  | nil => cases h; rfl
  | cons stage stages ih =>
    unfold runStages at h
    split at h
    · cases h
    · split at h
      · cases h
      · rename_i o' ho
        cases h
        simp [ih ho]

end Kotlinize
