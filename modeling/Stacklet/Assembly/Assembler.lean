import Stacklet.Assembly.Dispatch
import Stacklet.Assembly.Verify
import Stacklet.Code.Basic

/-!
# Assembling code

The assembler takes calls one by one and keeps a draft of every instruction in which labels still
stand for positions. When all calls are made, it replaces every label by the offset to the position
that it was bound to, and verifies stack discipline if that is wanted. A label has to be made before
it is bound, and is bound once.
-/

namespace Stacklet

/-- A reason why calls do not assemble. -/
inductive AssembleError where
  | boundAgain (label : Label)
  | notMade (label : Label)
  | notBound (label : Label)
  | pastEnd (label : Label)
  | offsetTooLarge
  | offsetTooSmall
  | unverified (name : String) (cause : VerifyError)

namespace AssembleError

/-- The wording of an error, without its cause. -/
def headline : AssembleError → String
  | .boundAgain label => "label " ++ label.text ++ " bound more than once"
  | .notMade label => "label " ++ label.text ++ " was never created"
  | .notBound label => "label " ++ label.text ++ " was never bound"
  | .pastEnd label => "label " ++ label.text ++ " is bound past the last instruction"
  | .offsetTooLarge | .offsetTooSmall => "branch offset out of range"
  | .unverified name _ => "stack verification failed for " ++ name

/-- The wording of an error, with its cause. -/
def message (e : AssembleError) : String :=
  match e with
  | .offsetTooLarge => e.headline ++ ": number too large to fit in target type"
  | .offsetTooSmall => e.headline ++ ": number too small to fit in target type"
  | .unverified _ cause => e.headline ++ ": " ++ cause.message
  | _ => e.headline

end AssembleError

/-- An instruction in which labels stand for positions. -/
inductive Draft where
  | plain (instr : Instr)
  | jump (jump : Jump) (target : Label)
  | switch (arms : List Arm) (other : Label)

/-- How code is assembled. -/
structure AssemblyOptions where
  /-- The fraction of a table that has to be keys for a switch to become one. -/
  minTableDensity : Float
  verifyStack : Bool

/-- What has been assembled: the drafts, the position of each label that is bound, and the first call
that bound a label wrongly. -/
structure Assembler where
  drafts : Array Draft
  labels : Array (Option Nat)
  misbound : Option AssembleError

namespace Assembler

/-- Nothing assembled yet. -/
def empty : Assembler := ⟨#[], #[], none⟩

/-- The index of the next instruction. -/
def position (a : Assembler) : Nat := a.drafts.size

/-- Adds a draft. -/
def add (a : Assembler) (d : Draft) : Assembler := { a with drafts := a.drafts.push d }

/-- Notes that a label was bound wrongly. -/
def fail (a : Assembler) (e : AssembleError) : Assembler := { a with misbound := a.misbound <|> some e }

/-- Binds a label to the current position. -/
def bind (a : Assembler) (label : Label) : Assembler :=
  match a.labels[label.id]? with
  | some none => { a with labels := a.labels.setIfInBounds label.id (some a.position) }
  | some (some _) => a.fail (.boundAgain label)
  | none => a.fail (.notMade label)

/-- Takes a call. -/
def call (a : Assembler) : Call → Assembler
  | .makeLabel => { a with labels := a.labels.push none }
  | .bind label => a.bind label
  | .add instr => a.add (.plain instr)
  | .inc slot delta => a.add (.plain (.inc slot delta))
  | .jump jump target => a.add (.jump jump target)
  | .switch keys labels other => a.add (.switch (Arm.sorted keys labels) other)

/-- Takes calls in order. -/
def ofCalls (calls : List Call) : Assembler := calls.foldl call empty

/-- The position of a label, which has to be that of an instruction. -/
def locate (a : Assembler) (label : Label) : Except AssembleError Nat :=
  match a.labels[label.id]? with
  | none => .error (.notMade label)
  | some none => .error (.notBound label)
  | some (some pos) => if pos < a.position then .ok pos else .error (.pastEnd label)

/-- The offset from a position to a label. -/
def offset (a : Assembler) (pc : Nat) (label : Label) : Except AssembleError Int32 := do
  let ofs : Int := (← a.locate label) - pc
  if ofs < -2147483648 then .error .offsetTooSmall
  else if 2147483647 < ofs then .error .offsetTooLarge
  else return Int32.ofInt ofs

/-- The instruction of a draft at a position. -/
def resolve (a : Assembler) (minDensity : Float) (pc : Nat) : Draft → Except AssembleError Instr
  | .plain instr => return instr
  | .jump jump target => do return jump.instr (← a.offset pc target)
  | .switch arms other => do
    let otherOffset ← a.offset pc other
    match Dispatch.ofArms minDensity arms other with
    | .table low entries => return .tableSwitch low otherOffset (← entries.mapM (a.offset pc))
    | .lookup arms =>
      return .lookupSwitch otherOffset (← arms.mapM fun arm => do return (arm.1, ← a.offset pc arm.2))

/-- The instructions of all drafts. -/
def instrs (a : Assembler) (minDensity : Float) : Except AssembleError (List Instr) :=
  match a.misbound with
  | some e => .error e
  | none => a.drafts.toList.zipIdx.mapM fun (draft, pc) => a.resolve minDensity pc draft

/-- The assembled code. Without verification the depth of the stack is given as 0. -/
def finish (a : Assembler) (options : AssemblyOptions) (name : String) (maxLocals : UInt16)
    (fields : List FieldDecl) : Except AssembleError Code := do
  let instrs := (← a.instrs options.minTableDensity).toArray
  let code := { name, instrs, maxStack := 0, maxLocals, fields : Code }
  if options.verifyStack then
    match verify instrs with
    | .ok maxStack => return { code with maxStack }
    | .error e => .error (.unverified name e)
  else return code

end Assembler

end Stacklet
