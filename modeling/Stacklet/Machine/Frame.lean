import Stacklet.Decimal.Parts
import Stacklet.Machine.Stack

/-!
# Executing one instruction

A frame is the state of the machine but for the position in the code. `Frame.step` executes one
instruction: it changes the frame and says where control goes, or it fails with a fault. Arithmetic
on ints and longs wraps; that on doubles is that of the format, with the remainder that truncates.
-/

namespace Stacklet

/-- A reason why an instruction cannot be executed. -/
inductive Fault where
  | underflow
  | wrongKind (expected : Kind) (found : Value)
  | noReceiver (found : Value)
  | uninitialized (slot : UInt16)
  | noSuchLocal (slot : UInt16) (count : Nat)
  | wrongLocal (slot : UInt16) (found : Value) (expected : Kind)
  | incReceiver (slot : UInt16)
  | noSuchField (index : UInt16)
  | emptyDup
  | notLongs
  | notDoubles (instr : Instr)
  | divisionByZero

/-- The wording of a fault in code of a name. -/
def Fault.message (name : String) : Fault → String
  | .underflow => "stack underflow"
  | .wrongKind expected found =>
    "expected " ++ expected.name ++ " on the stack, found " ++ found.describe
  | .noReceiver found => "expected the receiver on the stack, found " ++ found.describe
  | .uninitialized slot => "read of uninitialized local " ++ toString slot.toNat
  | .noSuchLocal slot count =>
    "local " ++ toString slot.toNat ++ " out of range (" ++ toString count ++ " slots)"
  | .wrongLocal slot found expected =>
    "local " ++ toString slot.toNat ++ " holds " ++ found.describe ++ ", not " ++ expected.name
  | .incReceiver slot => "inc on the receiver slot " ++ toString slot.toNat
  | .noSuchField index => "field " ++ toString index.toNat ++ " out of range in " ++ name
  | .emptyDup => "dup on an empty stack"
  | .notLongs => "lcmp expects two longs"
  | .notDoubles instr => instr.text none ++ " expects two doubles"
  | .divisionByZero => "division by zero"

namespace ArithOp

/-- Arithmetic on ints. -/
def onInts (op : ArithOp) (a b : Int32) : Except Fault Int32 :=
  match op with
  | .add => .ok (a + b)
  | .sub => .ok (a - b)
  | .mul => .ok (a * b)
  | .div => if b = 0 then .error .divisionByZero else .ok (a / b)
  | .rem => if b = 0 then .error .divisionByZero else .ok (a % b)

/-- Arithmetic on longs. -/
def onLongs (op : ArithOp) (a b : Int64) : Except Fault Int64 :=
  match op with
  | .add => .ok (a + b)
  | .sub => .ok (a - b)
  | .mul => .ok (a * b)
  | .div => if b = 0 then .error .divisionByZero else .ok (a / b)
  | .rem => if b = 0 then .error .divisionByZero else .ok (a % b)

/-- Arithmetic on doubles. -/
def onDoubles (op : ArithOp) (a b : Float) : Float :=
  match op with
  | .add => a + b
  | .sub => a - b
  | .mul => a * b
  | .div => a / b
  | .rem => Decimal.remainder a b

end ArithOp

/-- The order of two longs as an int. -/
def compareLongs (a b : Int64) : Int32 := if a < b then -1 else if a = b then 0 else 1

/-- The order of two doubles as an int, and `unordered` when one is not a number. -/
def compareDoubles (unordered : Int32) (a b : Float) : Int32 :=
  if a < b then -1 else if a == b then 0 else if b < a then 1 else unordered

/-- The state of the machine but for the position in the code. -/
structure Frame where
  stack : Stack
  /-- The locals; those that have not been written hold nothing. -/
  locals : Array (Option Value)
  fields : Array Value
  /-- The greatest height of the stack so far. -/
  maxDepth : Nat

/-- Where control goes after an instruction. -/
inductive Flow where
  | next
  | jump (offset : Int32)
  | finish (value : Option Value)

/-- An action on a frame. -/
abbrev Exec := StateT Frame (Except Fault)

namespace Exec

/-- Fails. -/
def fail {α : Type} (fault : Fault) : Exec α := fun _ => .error fault

/-- Pushes a value. -/
def push (v : Value) : Exec Unit := fun f =>
  let stack := f.stack.push v
  .ok ((), { f with stack := stack, maxDepth := max f.maxDepth stack.height })

/-- Pops a value. -/
def pop : Exec Value := fun f =>
  match f.stack.pop? with
  | some (v, stack) => .ok (v, { f with stack := stack })
  | none => .error .underflow

/-- Pops an int. -/
def popInt : Exec Int32 := do
  match ← pop with
  | .int v => return v
  | v => fail (.wrongKind .int v)

/-- Pops a long. -/
def popLong : Exec Int64 := do
  match ← pop with
  | .long v => return v
  | v => fail (.wrongKind .long v)

/-- Pops a double. -/
def popDouble : Exec Float := do
  match ← pop with
  | .double v => return v
  | v => fail (.wrongKind .double v)

/-- Pops a number of a kind. -/
def popKind (kind : Kind) : Exec Value := do
  let v ← pop
  if v.kind? = some kind then return v else fail (.wrongKind kind v)

/-- Pops the receiver. -/
def popRef : Exec Unit := do
  match ← pop with
  | .ref => return ()
  | v => fail (.noReceiver v)

/-- The value of a local. -/
def getLocal (slot : UInt16) : Exec Value := fun f =>
  match f.locals[slot.toNat]? with
  | some (some v) => .ok (v, f)
  | _ => .error (.uninitialized slot)

/-- Writes a local. -/
def setLocal (slot : UInt16) (v : Value) : Exec Unit := fun f =>
  if slot.toNat < f.locals.size then
    .ok ((), { f with locals := f.locals.setIfInBounds slot.toNat (some v) })
  else .error (.noSuchLocal slot f.locals.size)

/-- The value of a field. -/
def getField (index : UInt16) : Exec Value := fun f =>
  match f.fields[index.toNat]? with
  | some v => .ok (v, f)
  | none => .error (.noSuchField index)

/-- Writes a field. -/
def setField (index : UInt16) (v : Value) : Exec Unit := fun f =>
  .ok ((), { f with fields := f.fields.setIfInBounds index.toNat v })

/-- Adds to a number of any kind. -/
def bump (slot : UInt16) (delta : Int32) : Value → Exec Value
  | .int v => return .int (v + delta)
  | .long v => return .long (v + delta.toInt64)
  | .double v => return .double (v + Float.ofInt delta.toInt)
  | .ref => fail (.incReceiver slot)

/-- Pops two doubles and pushes their order. -/
def compareTop (instr : Instr) (unordered : Int32) : Exec Flow := do
  match ← pop, ← pop with
  | .double rhs, .double lhs =>
    push (.int (compareDoubles unordered lhs rhs))
    return .next
  | _, _ => fail (.notDoubles instr)

end Exec

open Exec

/-- The entry of a table for a key, counted from `low`. -/
def tableOffset? (low : Int32) (offsets : Array Int32) (key : Int32) : Option Int32 :=
  let index := key.toInt - low.toInt
  if 0 ≤ index then offsets[index.toNat]? else none

/-- Searches pairs for a key by halving. As long as there are two pairs or more, the one in the middle decides which
part is left: the first one if its key is too great, else the second one, which it starts. Neither is shorter than the
other. -/
def bisect (key : Int32) : List (Int32 × Int32) → Option Int32
  | [] => none
  | [(only, offset)] => if only = key then some offset else none
  | first :: second :: rest =>
    let pairs := first :: second :: rest
    let half := pairs.length / 2
    if pairs[half]?.any (key < ·.1) then bisect key (pairs.take (pairs.length - half))
    else bisect key (pairs.drop half)
termination_by pairs => pairs.length
decreasing_by
  · simp only [List.length_take, List.length_cons]
    omega
  · simp only [List.length_drop, List.length_cons]
    omega

/-- Executes an instruction. -/
def Instr.exec : Instr → Exec Flow
  | .iconst v => do
    push (.int v)
    return .next
  | .lconst v => do
    push (.long v)
    return .next
  | .dconst v => do
    push (.double v)
    return .next
  | .load kind slot => do
    let v ← getLocal slot
    if v.kind? = some kind then
      push v
      return .next
    else fail (.wrongLocal slot v kind)
  | .store kind slot => do
    let v ← popKind kind
    setLocal slot v
    return .next
  | .inc slot delta => do
    let v ← getLocal slot
    setLocal slot (← bump slot delta v)
    return .next
  | .loadThis => do
    push .ref
    return .next
  | .getField index => do
    let v ← Exec.getField index
    popRef
    push v
    return .next
  | .putField index => do
    let _ ← Exec.getField index
    let v ← Exec.pop
    popRef
    setField index v
    return .next
  | .dup => fun f =>
    match f.stack.top? with
    | some v => (do push v; return .next : Exec Flow) f
    | none => .error .emptyDup
  | .dupX1 => do
    let top ← Exec.pop
    let below ← Exec.pop
    push top
    push below
    push top
    return .next
  | .pop => do
    let _ ← Exec.pop
    return .next
  | .arith op .int => do
    let rhs ← popInt
    let lhs ← popInt
    push (.int (← op.onInts lhs rhs))
    return .next
  | .arith op .long => do
    let rhs ← popLong
    let lhs ← popLong
    push (.long (← op.onLongs lhs rhs))
    return .next
  | .arith op .double => do
    let rhs ← popDouble
    let lhs ← popDouble
    push (.double (op.onDoubles lhs rhs))
    return .next
  | .neg .int => do
    push (.int (-(← popInt)))
    return .next
  | .neg .long => do
    push (.long (-(← popLong)))
    return .next
  | .neg .double => do
    push (.double (-(← popDouble)))
    return .next
  | .lcmp => do
    match ← Exec.pop, ← Exec.pop with
    | .long rhs, .long lhs =>
      push (.int (compareLongs lhs rhs))
      return .next
    | _, _ => fail .notLongs
  | .dcmpl => compareTop .dcmpl (-1)
  | .dcmpg => compareTop .dcmpg 1
  | .goto offset => return .jump offset
  | .ifZero cond offset => do
    let v ← popInt
    return if cond.test v 0 then .jump offset else .next
  | .ifCompare cond offset => do
    let rhs ← popInt
    let lhs ← popInt
    return if cond.test lhs rhs then .jump offset else .next
  | .tableSwitch low other offsets => do
    let key ← popInt
    return .jump ((tableOffset? low offsets key).getD other)
  | .lookupSwitch other pairs => do
    let key ← popInt
    return .jump ((bisect key pairs).getD other)
  | .ret => return .finish none
  | .retValue kind => do return .finish (some (← popKind kind))

/-- Executes an instruction on a frame. -/
def Frame.step (f : Frame) (instr : Instr) : Except Fault (Flow × Frame) := instr.exec f

end Stacklet
