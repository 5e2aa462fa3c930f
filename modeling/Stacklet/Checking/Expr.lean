import Stacklet.Checking.Names
import Stacklet.Checking.Reporting

/-!
# Checking expressions

An expression is checked against the names in scope, which it never changes. Operators take operands
of one exact type, without any conversion. An operand of type `any` has been reported already or is
declared so; the expression around it fails the check without another report.
-/

namespace Stacklet

/-- The type of the result of an operator with two operands, if it takes their types. -/
def BinaryOp.resultType? (op : BinaryOp) (lhs rhs : Ty) : Option Ty :=
  let sameNumeric := lhs == rhs && lhs.isNumeric
  match op with
  | .arith _ => if sameNumeric then some lhs else none
  | .compare cond => if (if cond.isOrdering then sameNumeric else lhs == rhs) then some .boolean else none
  | .logic _ => if lhs == .boolean && rhs == .boolean then some .boolean else none

namespace Typed.Expr

/-- Checks a negation. -/
def checkNegate (line : Line) (operand : Expr) : Reporting Expr :=
  if operand.ty = .any then pure (failed line)
  else match operand.ty.kind? with
    | some kind => pure (.negate line kind.ty operand)
    | none => do
      report (.badOperand line UnaryOp.negate.symbol operand.ty)
      return failed line

/-- Checks a logical negation. -/
def checkNot (line : Line) (operand : Expr) : Reporting Expr :=
  match operand.ty with
  | .boolean => pure (.not line .boolean operand)
  | .any => pure (failed line)
  | ty => do
    report (.badOperand line UnaryOp.not.symbol ty)
    return failed line

/-- Checks a step of a place. -/
def checkStep (line : Line) (op : StepOp) (place : Place) : Reporting Expr :=
  if place.ty = .any then pure (failed line)
  else if place.ty.isNumeric then pure (.step line place.ty op place)
  else do
    report (.badOperand line op.symbol place.ty)
    return failed line

/-- Checks an operation on two operands. -/
def checkBinary (line : Line) (op : BinaryOp) (lhs rhs : Expr) : Reporting Expr :=
  if lhs.ty = .any ∨ rhs.ty = .any then pure (failed line)
  else match op.resultType? lhs.ty rhs.ty with
    | some ty => pure (.binary line ty op lhs rhs)
    | none => do
      report (.badOperands line op.symbol lhs.ty rhs.ty)
      return failed line

/-- Checks an assignment to a place. -/
def checkAssign (line : Line) (place : Place) (value : Expr) : Reporting Expr := do
  if ← expect line value.ty place.ty then return .assign line place.ty place value
  else return failed line

/-- Goes on with a place that was resolved. -/
def atPlace (line : Line) (place : Option Place) (check : Place → Reporting Expr) : Reporting Expr :=
  match place with
  | some place => check place
  | none => pure (failed line)

/-- Reads a resolved place. -/
def ofPlace (line : Line) : Option Place → Expr
  | some place => .load line place.ty place
  | none => failed line

end Typed.Expr

namespace Source.Expr

/-- Resolves a name, or reports that it is unknown. -/
def resolveName (names : Names) (line : Line) (name : String) : Reporting (Option Place) :=
  match names.lookup? name with
  | some place => pure (some place)
  | none => do
    report (.unknownName line name)
    return none

/-- Resolves the name of a field, or reports that it is unknown. -/
def resolveField (names : Names) (line : Line) (name : String) : Reporting (Option Place) :=
  match names.field? name with
  | some ref => pure (some (.ofField ref))
  | none => do
    report (.unknownField line name)
    return none

/-- Resolves an operand that has to be a place. Any other operand is reported after the mistakes
inside it. -/
def resolvePlace (names : Names) (role : String) (operand : Expr) (checked : Reporting Typed.Expr) :
    Reporting (Option Place) :=
  match operand with
  | .var line name => resolveName names line name
  | .field line name => resolveField names line name
  | _ => do
    let _ ← checked
    report (.noPlace operand.line role)
    return none

/-- Checks an expression. -/
def check (names : Names) : Expr → Reporting Typed.Expr
  | .literal line value => pure (.literal line value.ty value)
  | .var line name => do return .ofPlace line (← resolveName names line name)
  | .field line name => do return .ofPlace line (← resolveField names line name)
  | .unary line .negate operand => do (← check names operand).checkNegate line
  | .unary line .not operand => do (← check names operand).checkNot line
  | .step line op operand => do
    let place ← resolvePlace names ("Operand to " ++ op.symbol) operand (check names operand)
    Typed.Expr.atPlace line place fun place => Typed.Expr.checkStep line op place
  | .binary line op lhs rhs => do
    let lhs ← check names lhs
    let rhs ← check names rhs
    Typed.Expr.checkBinary line op lhs rhs
  | .assign line target value => do
    let place ← resolvePlace names "Assignment target" target (check names target)
    let value ← check names value
    Typed.Expr.atPlace line place fun place => Typed.Expr.checkAssign line place value

end Source.Expr

end Stacklet
