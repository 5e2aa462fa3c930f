import Stacklet.Decimal.Parts
import Stacklet.Machine.Value
import Stacklet.Typed.Basic

/-!
# Evaluating expressions

What a typed tree means, without any machine: an expression is evaluated over the locals and the
fields, its operands from left to right. The type of a node says in which kind it works, so that a
value of another kind reads as zero; in trees that passed the check this does not happen. Evaluation
halts early for three reasons: a division by zero, a local that was never written, and a loop that
outlasts the fuel that it is given.
-/

namespace Stacklet

/-- What a program works on: the locals, those that have not been written holding nothing, and the
fields of the receiver. -/
structure Store where
  locals : Array (Option Value)
  fields : Array Value

/-- A reason why evaluation does not come to its end. -/
inductive Halt where
  | divisionByZero
  | uninitialized (slot : UInt16)
  | outOfFuel

/-- A computation on the store that may halt. -/
abbrev Eval := StateT Store (Except Halt)

namespace Value

/-- The int of a value. -/
def asInt : Value → Int32
  | .int v => v
  | _ => 0

/-- The long of a value. -/
def asLong : Value → Int64
  | .long v => v
  | _ => 0

/-- The double of a value. -/
def asDouble : Value → Float
  | .double v => v
  | _ => 0.0

/-- Truth values are the ints 0 and 1. -/
def ofBool (b : Bool) : Value := .int (if b then 1 else 0)

/-- The truth of a value. -/
def truth (v : Value) : Bool := v.asInt != 0

/-- The negation of a number of a kind. -/
def negate (kind : Kind) (v : Value) : Value :=
  match kind with
  | .int => .int (-v.asInt)
  | .long => .long (-v.asLong)
  | .double => .double (-v.asDouble)

/-- The number of a kind that is greater by one. The greatest int is followed by the least, and so for longs. -/
def increased (kind : Kind) (v : Value) : Value :=
  match kind with
  | .int => .int (v.asInt + 1)
  | .long => .long (v.asLong + 1)
  | .double => .double (v.asDouble + 1.0)

/-- The number of a kind that is less by one. -/
def decreased (kind : Kind) (v : Value) : Value :=
  match kind with
  | .int => .int (v.asInt - 1)
  | .long => .long (v.asLong - 1)
  | .double => .double (v.asDouble - 1.0)

@[simp] theorem truth_ofBool (b : Bool) : (ofBool b).truth = b := by cases b <;> rfl

end Value

/-- The value of a constant. -/
def Literal.value : Literal → Value
  | .int v => .int v
  | .long v => .long v
  | .double v => .double v
  | .bool v => .ofBool v

namespace ArithOp

/-- Whether the operation divides. -/
def divides : ArithOp → Bool
  | .div | .rem => true
  | _ => false

/-- The operation in a type that has it, where it wraps around. -/
def wrapping {α : Type} [Add α] [Sub α] [Mul α] [Div α] [Mod α] (op : ArithOp) (a b : α) : α :=
  match op with
  | .add => a + b
  | .sub => a - b
  | .mul => a * b
  | .div => a / b
  | .rem => a % b

/-- The operation on doubles. None of them halts; the remainder is that of a division that truncates. -/
def rounded (op : ArithOp) (a b : Float) : Float :=
  match op with
  | .add => a + b
  | .sub => a - b
  | .mul => a * b
  | .div => a / b
  | .rem => Decimal.remainder a b

/-- The operation on numbers of a kind. Ints and longs cannot be divided by zero. -/
def apply (op : ArithOp) (kind : Kind) (a b : Value) : Except Halt Value :=
  match kind with
  | .int =>
    if op.divides ∧ b.asInt = 0 then .error .divisionByZero
    else .ok (.int (op.wrapping a.asInt b.asInt))
  | .long =>
    if op.divides ∧ b.asLong = 0 then .error .divisionByZero
    else .ok (.long (op.wrapping a.asLong b.asLong))
  | .double => .ok (.double (op.rounded a.asDouble b.asDouble))

end ArithOp

namespace Cond

/-- Whether the condition holds of two members of an ordered type. -/
def holds {α : Type} [BEq α] [LT α] [LE α] [DecidableLT α] [DecidableLE α] (c : Cond) (a b : α) : Bool :=
  match c with
  | .eq => a == b
  | .ne => a != b
  | .lt => decide (a < b)
  | .ge => decide (b ≤ a)
  | .gt => decide (b < a)
  | .le => decide (a ≤ b)

/-- Whether the condition holds of two numbers of a kind. Of doubles one of which is not a number only
`ne` holds. -/
def apply (c : Cond) (kind : Kind) (a b : Value) : Bool :=
  match kind with
  | .int => c.holds a.asInt b.asInt
  | .long => c.holds a.asLong b.asLong
  | .double => c.holds a.asDouble b.asDouble

end Cond

/-- The truth value of the left operand that decides the operation without the right one. -/
def LogicOp.shortcut : LogicOp → Bool
  | .and => false
  | .or => true

namespace StepOp

/-- What a step makes of the number in its place. -/
def changed (kind : Kind) (old : Value) : StepOp → Value
  | .preInc | .postInc => old.increased kind
  | .preDec | .postDec => old.decreased kind

/-- The value of a step: the new number if the operator stands before its operand, else the old one. -/
def result (kind : Kind) (old : Value) : StepOp → Value
  | .preInc => old.increased kind
  | .preDec => old.decreased kind
  | .postInc | .postDec => old

end StepOp

namespace Place

/-- Reads a place. -/
def get : Place → Eval Value
  | .ofLocal var => fun σ =>
    match σ.locals[var.slot.toNat]? with
    | some (some v) => .ok (v, σ)
    | _ => .error (.uninitialized var.slot)
  | .ofField field => fun σ =>
    .ok ((σ.fields[field.index.toNat]?).getD (.zero field.ty.storage), σ)

/-- The store with a place written. -/
def write (σ : Store) (v : Value) : Place → Store
  | .ofLocal var => { σ with locals := σ.locals.setIfInBounds var.slot.toNat (some v) }
  | .ofField field => { σ with fields := σ.fields.setIfInBounds field.index.toNat v }

/-- Writes a place. -/
def set (p : Place) (v : Value) : Eval Unit := fun σ => .ok ((), p.write σ v)

end Place

namespace Typed.Expr

/-- The value of an expression. -/
def eval : Expr → Eval Value
  | .literal _ _ v => return v.value
  | .load _ _ p => p.get
  | .negate _ ty e => do return (← e.eval).negate ty.storage
  | .not _ _ e => do return .ofBool !(← e.eval).truth
  | .step _ ty op p => do
    let old ← p.get
    p.set (op.changed ty.storage old)
    return op.result ty.storage old
  | .binary _ ty (.arith op) l r => do
    let lhs ← l.eval
    let rhs ← r.eval
    op.apply ty.storage lhs rhs
  | .binary _ _ (.compare cond) l r => do
    let lhs ← l.eval
    let rhs ← r.eval
    return .ofBool (cond.apply l.ty.storage lhs rhs)
  | .binary _ _ (.logic op) l r => do
    if (← l.eval).truth = op.shortcut then return .ofBool op.shortcut
    else return .ofBool (← r.eval).truth
  | .assign _ _ p e => do
    let v ← e.eval
    p.set v
    return v
  | .error _ ty => return .zero ty.storage

/-- The truth of a condition. -/
def test (e : Expr) : Eval Bool := do return (← e.eval).truth

end Typed.Expr

end Stacklet
