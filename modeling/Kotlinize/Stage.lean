import Kotlinize.Call.NamedArgument
import Kotlinize.Function.ParameterLabel
import Kotlinize.Function.ReturnArrow
import Kotlinize.Property.Computed
import Kotlinize.Property.LateInit
import Kotlinize.Property.RestrictedSetter

namespace Kotlinize

/-!
# Stages

The conversion is made in passes, each of which deals with one construct.

* `Stage` — the six passes; `Stage.all` is the order in which they run.
* `Stage.apply` — one pass over a token list.
* `StageGroup` — the passes over functions and those over properties.
-/

/-- A pass over a token list. Each may rely on what the ones before it leave. -/
inductive Stage where
  /-- Call-site colons become equals signs. -/
  | namedArguments
  /-- Labels in parameter lists are dropped. -/
  | parameterLabels
  /-- Return arrows become colons. -/
  | returnArrows
  /-- Accessors move behind the type of their property. -/
  | computedProperties
  /-- Modifiers of setters move behind the declaration. -/
  | restrictedSetters
  /-- The mark behind a type becomes the modifier `lateinit`. -/
  | lateInitProperties
deriving DecidableEq, Repr

namespace Stage

/-- Every stage, in the order in which they run. -/
def all : List Stage :=
  [namedArguments, parameterLabels, returnArrows, computedProperties, restrictedSetters,
    lateInitProperties]

/-- The stage's written name. -/
def name : Stage → String
  | namedArguments => "named-argument-calls"
  | parameterLabels => "external-parameter-names"
  | returnArrows => "return-arrows"
  | computedProperties => "computed-properties"
  | restrictedSetters => "restricted-setters"
  | lateInitProperties => "late-init-properties"

/-- The stage of a written name. -/
def named? (text : String) : Option Stage := all.find? fun stage => stage.name == text

/-- Runs the stage once over a token list. -/
def apply (config : Config) : Stage → List Token → Edited
  | namedArguments => nameArguments config
  | parameterLabels => dropLabels
  | returnArrows => arrowsToColons config
  | computedProperties => suffixAccessors config
  | restrictedSetters => relocateSetters config
  | lateInitProperties => markLateInit

theorem mem_all (stage : Stage) : stage ∈ all := by
  cases stage <;> decide

theorem named?_name (stage : Stage) : named? stage.name = some stage := by
  cases stage <;> decide

end Stage

/-! ### Groups of stages -/

/-- The stages that belong together. -/
inductive StageGroup where
  /-- Calls and declarations of functions. -/
  | functions
  /-- Declarations of properties. -/
  | properties
deriving DecidableEq, Repr

namespace StageGroup

/-- Every group, in the order in which they run. -/
def all : List StageGroup := [functions, properties]

/-- The group's written name. -/
def name : StageGroup → String
  | functions => "function parameters"
  | properties => "properties"

/-- The group of a written name. -/
def named? (text : String) : Option StageGroup := all.find? fun group => group.name == text

/-- The group's stages, in the order in which they run. -/
def stages : StageGroup → List Stage
  | functions => [.namedArguments, .parameterLabels, .returnArrows]
  | properties => [.computedProperties, .restrictedSetters, .lateInitProperties]

theorem flatMap_stages_all : all.flatMap stages = Stage.all := rfl

end StageGroup

end Kotlinize
