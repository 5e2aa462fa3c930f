import Stacklet.Options
import Stacklet.Toml.Reader

/-!
# Options in TOML

Every option may be missing, and other keys are passed over, but for numbers that are too large. A
group of options is a table, or an array of its first options in order; a date is a group that gives
none of them. The values are held to their limits.
-/

namespace Stacklet

namespace Toml

mutual

/-- Whether a value holds no number that is too large. -/
def isGiven : Toml → Bool
  | .scalar .tooLarge => false
  | .scalar _ | .str _ => true
  | .arr items => allGiven items
  | .table entries => entriesGiven entries

/-- Whether the items of an array hold no number that is too large. -/
def allGiven : List Toml → Bool
  | [] => true
  | t :: rest => t.isGiven && allGiven rest

/-- Whether the values of a table hold no number that is too large. -/
def entriesGiven : List (String × Toml) → Bool
  | [] => true
  | (_, t) :: rest => t.isGiven && entriesGiven rest

end

/-- The parts of a group by the names of its options. -/
def parts? (names : List String) : Toml → Option (List (Option Toml))
  | .table entries =>
    if entries.all fun (key, t) => names.contains key || t.isGiven then
      some (names.map (entries.lookup ·))
    else none
  | .arr items => some (names.zipIdx.map fun (_, i) => items[i]?)
  | .scalar .date => some (names.map fun _ => none)
  | _ => none

/-- An integer of 64 bits without a sign. -/
def u64? : Toml → Option Nat
  | .scalar (.int n) => if 0 ≤ n ∧ n < Int.pow 2 64 then some n.toNat else none
  | _ => none

/-- A double; an integer of 64 bits stands for the nearest one. -/
def f64? : Toml → Option Float
  | .scalar (.float x) => some x
  | .scalar (.int n) => if -Int.pow 2 63 ≤ n ∧ n < Int.pow 2 64 then some (Float.ofInt n) else none
  | _ => none

/-- A truth value. -/
def bool? : Toml → Option Bool
  | .scalar (.bool b) => some b
  | _ => none

end Toml

namespace Options

/-- Reads a part, with a value for a missing one. -/
def readPart? {α : Type} (missing : α) (read : Toml → Option α) : Option Toml → Option α
  | none => some missing
  | some t => read t

/-- Reads the group for switches. -/
def switchOfToml? (t : Toml) : Option Float := do
  let [density] ← t.parts? ["min_table_density"] | none
  readPart? standard.minTableDensity Toml.f64? density

/-- Reads the group for the machine. -/
def machineOfToml? (t : Toml) : Option Nat := do
  let [steps] ← t.parts? ["max_steps"] | none
  readPart? standard.maxSteps Toml.u64? steps

/-- The options of a TOML value. -/
def ofToml? (t : Toml) : Option Options := do
  let [errors, verify, switch, machine] ←
    t.parts? ["max_errors", "verify_stack", "switch", "vm"] | none
  return {
    maxErrors := ← readPart? standard.maxErrors (fun t => t.u64?.map some) errors
    verifyStack := ← readPart? standard.verifyStack Toml.bool? verify
    minTableDensity := ← readPart? standard.minTableDensity switchOfToml? switch
    maxSteps := ← readPart? standard.maxSteps machineOfToml? machine }

/-- The options that a text gives. -/
def parse (text : String) : Except OptionsError Options :=
  match (Toml.parse? text).bind fun entries => ofToml? (.table entries) with
  | none => .error .unreadable
  | some options => options.validate

end Options

end Stacklet
