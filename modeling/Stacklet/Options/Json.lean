import Stacklet.Json.Decode
import Stacklet.Options

/-!
# Options in JSON

Every option may be missing. The values are not held to their limits here.
-/

namespace Stacklet.Options

/-- Reads the member for switches. -/
def readSwitch? (j : Json) : Option Float := do
  let [density] ← j.slots? ["min_table_density"] | none
  density.orElse? standard.minTableDensity Json.f64?

/-- Reads the member for the machine. -/
def readMachine? (j : Json) : Option Nat := do
  let [steps] ← j.slots? ["max_steps"] | none
  steps.orElse? standard.maxSteps Json.u64?

/-- The options of a JSON value. -/
def ofJson? (j : Json) : Option Options := do
  let [errors, verify, switch, machine] ←
    j.slots? ["max_errors", "verify_stack", "switch", "vm"] | none
  return {
    maxErrors := ← errors.optionalOrElse? standard.maxErrors Json.u64?
    verifyStack := ← verify.orElse? standard.verifyStack Json.bool?
    minTableDensity := ← switch.orElse? standard.minTableDensity readSwitch?
    maxSteps := ← machine.orElse? standard.maxSteps readMachine? }

end Stacklet.Options
