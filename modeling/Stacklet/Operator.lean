/-!
# Operators

The operators of the language, grouped by what they do: arithmetic, comparison and logic for two
operands, negation for one, and the four steps `++x`, `--x`, `x++`, `x--`. A comparison is the same
`Cond` that the machine's conditional jumps test.
-/

namespace Stacklet

/-- A condition on two numbers in order. -/
inductive Cond where
  | eq
  | ne
  | lt
  | ge
  | gt
  | le
deriving DecidableEq

namespace Cond

/-- The condition that holds exactly when the given one does not. -/
def negate : Cond → Cond
  | .eq => .ne
  | .ne => .eq
  | .lt => .ge
  | .ge => .lt
  | .gt => .le
  | .le => .gt

/-- Whether the condition holds of two ints. -/
def test (c : Cond) (lhs rhs : Int32) : Bool :=
  match c with
  | .eq => lhs == rhs
  | .ne => lhs != rhs
  | .lt => decide (lhs < rhs)
  | .ge => decide (rhs ≤ lhs)
  | .gt => decide (rhs < lhs)
  | .le => decide (lhs ≤ rhs)

/-- The ending that names the condition in an instruction. -/
def mnemonic : Cond → String
  | .eq => "eq"
  | .ne => "ne"
  | .lt => "lt"
  | .ge => "ge"
  | .gt => "gt"
  | .le => "le"

/-- The operator that asks for the condition. -/
def symbol : Cond → String
  | .eq => "=="
  | .ne => "!="
  | .lt => "<"
  | .ge => ">="
  | .gt => ">"
  | .le => "<="

/-- Whether the condition depends on order, and not on equality alone. -/
def isOrdering : Cond → Bool
  | .lt | .ge | .gt | .le => true
  | .eq | .ne => false

@[simp] theorem negate_negate (c : Cond) : c.negate.negate = c := by cases c <;> rfl

theorem test_negate (c : Cond) (a b : Int32) : c.negate.test a b = !c.test a b := by
  cases c <;> simp [negate, test, bne, ← decide_not]

end Cond

/-- Arithmetic on two numbers of one kind. -/
inductive ArithOp where
  | add
  | sub
  | mul
  | div
  | rem
deriving DecidableEq

namespace ArithOp

/-- The operator as it is written. -/
def symbol : ArithOp → String
  | .add => "+"
  | .sub => "-"
  | .mul => "*"
  | .div => "/"
  | .rem => "%"

/-- The ending that names the operation in an instruction. -/
def mnemonic : ArithOp → String
  | .add => "add"
  | .sub => "sub"
  | .mul => "mul"
  | .div => "div"
  | .rem => "rem"

end ArithOp

/-- Logic with short-circuit evaluation. -/
inductive LogicOp where
  | and
  | or
deriving DecidableEq

namespace LogicOp

/-- The operator as it is written. -/
def symbol : LogicOp → String
  | .and => "&&"
  | .or => "||"

end LogicOp

/-- An operator with two operands. -/
inductive BinaryOp where
  | arith (op : ArithOp)
  | compare (cond : Cond)
  | logic (op : LogicOp)
deriving DecidableEq

namespace BinaryOp

/-- The operator as it is written. -/
def symbol : BinaryOp → String
  | .arith op => op.symbol
  | .compare cond => cond.symbol
  | .logic op => op.symbol

end BinaryOp

/-- An operator with one operand. -/
inductive UnaryOp where
  | negate
  | not
deriving DecidableEq

namespace UnaryOp

/-- The operator as it is written. -/
def symbol : UnaryOp → String
  | .negate => "-"
  | .not => "!"

end UnaryOp

/-- A step of a place by one, up or down, with the value taken before or after it. -/
inductive StepOp where
  | preInc
  | preDec
  | postInc
  | postDec
deriving DecidableEq

namespace StepOp

/-- Whether the operator stands before its operand, so that its value is the one after the step. -/
def isPre : StepOp → Bool
  | .preInc | .preDec => true
  | .postInc | .postDec => false

/-- Whether the step goes up. -/
def isIncrement : StepOp → Bool
  | .preInc | .postInc => true
  | .preDec | .postDec => false

/-- What the step adds. -/
def delta (op : StepOp) : Int32 := if op.isIncrement then 1 else -1

/-- The operator as it is written. -/
def symbol (op : StepOp) : String := if op.isIncrement then "++" else "--"

end StepOp

end Stacklet
