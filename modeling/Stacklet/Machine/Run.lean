import Stacklet.Code.Basic
import Stacklet.Machine.Frame

/-!
# Running code

Code runs from its first instruction until it returns, fails, or has used up its budget of
instructions. The budget is checked before each instruction.
-/

namespace Stacklet

/-- A reason why a run does not end with an outcome. -/
inductive RunError where
  | outOfBudget (budget : Nat)
  | outside (pc size : Nat)
  | negativeTarget (pc : Nat) (target : Int)
  | fault (fault : Fault)

/-- The wording of an error in code of a name. -/
def RunError.message (name : String) : RunError → String
  | .outOfBudget budget => "instruction budget of " ++ toString budget ++ " exhausted in " ++ name
  | .outside pc size =>
    "pc " ++ toString pc ++ " outside of " ++ name ++ " (" ++ toString size ++ " ops)"
  | .negativeTarget pc target =>
    "jump from " ++ toString pc ++ " to negative target " ++ toString target
  | .fault cause => cause.message name

/-- What a run that ends leaves behind. -/
structure Outcome where
  /-- The value given back, if any. -/
  value : Option Value
  locals : Array (Option Value)
  fields : List (String × Value)
  /-- The number of instructions executed. -/
  steps : Nat
  /-- The greatest height of the stack. -/
  maxDepth : Nat
  /-- The number of values left on the stack. -/
  stackLeft : Nat

namespace Outcome

/-- The value of the first field of a name. -/
def field? (o : Outcome) (name : String) : Option Value := o.fields.lookup name

/-- The value of a local, if it has one. -/
def local? (o : Outcome) (slot : UInt16) : Option Value := (o.locals[slot.toNat]?).join

/-- The outcome as it is shown: the value given back, then the fields. -/
def text (o : Outcome) : String :=
  o.value.elim "" (fun v => "return " ++ v.text ++ "\n")
    ++ String.join (o.fields.map fun (name, v) => name ++ " = " ++ v.text ++ "\n")

/-- The outcome is written with all its parts. -/
def toJson (o : Outcome) : Json :=
  .obj [("value", .ofOption Value.toJson o.value),
    ("locals", .arr (o.locals.toList.map (.ofOption Value.toJson))),
    ("fields", .arr (o.fields.map fun (name, v) => .arr [.str name, v.toJson])),
    ("steps", .nat o.steps), ("max_depth", .nat o.maxDepth), ("stack_left", .nat o.stackLeft)]

end Outcome

/-- Where a run stands after an instruction. -/
inductive Progress where
  | running (pc : Nat) (frame : Frame)
  | finished (value : Option Value) (frame : Frame)

namespace Code

/-- The frame at the start: the receiver in slot 0, nothing in the other locals, and zeros in all
fields. -/
def start (code : Code) : Frame where
  stack := .empty
  locals := (Array.replicate (max code.maxLocals.toNat 1) none).setIfInBounds 0 (some .ref)
  fields := (code.fields.map fun field => Value.zero field.ty.storage).toArray
  maxDepth := 0

/-- Executes the instruction at a position. -/
def advance (code : Code) (pc : Nat) (frame : Frame) : Except RunError Progress :=
  match code.instrs[pc]? with
  | none => .error (.outside pc code.instrs.size)
  | some instr =>
    match frame.step instr with
    | .error fault => .error (.fault fault)
    | .ok (.next, frame) => .ok (.running (pc + 1) frame)
    | .ok (.finish value, frame) => .ok (.finished value frame)
    | .ok (.jump offset, frame) =>
      let target := pc + offset.toInt
      if target < 0 then .error (.negativeTarget pc target) else .ok (.running target.toNat frame)

/-- The outcome of a run that ends with a frame. -/
def outcome (code : Code) (value : Option Value) (frame : Frame) (steps : Nat) : Outcome where
  value := value
  locals := frame.locals
  fields := (code.fields.map (·.name)).zip frame.fields.toList
  steps := steps
  maxDepth := frame.maxDepth
  stackLeft := frame.stack.height

/-- Runs from a position with what is left of a budget. -/
def runFrom (code : Code) (budget : Nat) : Nat → Nat → Frame → Except RunError Outcome
  | 0, _, _ => .error (.outOfBudget budget)
  | left + 1, pc, frame =>
    match code.advance pc frame with
    | .error e => .error e
    | .ok (.running pc frame) => runFrom code budget left pc frame
    | .ok (.finished value frame) => .ok (code.outcome value frame (budget - left))

/-- Runs code with a budget of instructions. -/
def run (code : Code) (budget : Nat) : Except RunError Outcome :=
  code.runFrom budget budget 0 code.start

end Code

end Stacklet
