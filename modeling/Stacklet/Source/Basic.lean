import Stacklet.Operator
import Stacklet.Ty

/-!
# Source trees

A program is a receiver with named fields and one body. Expressions and statements are plain trees
in which every node carries the line it was written on; line 0 means that the line is not known.
-/

namespace Stacklet

/-- A line of the source text, 0 when it is not known. -/
abbrev Line := UInt32

/-- A constant as it is written. -/
inductive Literal where
  | int (value : Int32)
  | long (value : Int64)
  | double (value : Float)
  | bool (value : Bool)
deriving BEq

/-- The type of a constant. -/
def Literal.ty : Literal → Ty
  | .int _ => .int
  | .long _ => .long
  | .double _ => .double
  | .bool _ => .boolean

/-- A field of the receiver. -/
structure FieldDecl where
  name : String
  ty : Ty
deriving DecidableEq

/-- Labels that share one block of a switch. A block falls through into the next group unless it
jumps away. -/
structure SwitchGroup (label stmt : Type) where
  labels : List label
  block : List stmt
deriving BEq

namespace Source

/-- An expression. -/
inductive Expr where
  | literal (line : Line) (value : Literal)
  | var (line : Line) (name : String)
  | field (line : Line) (name : String)
  | unary (line : Line) (op : UnaryOp) (operand : Expr)
  | step (line : Line) (op : StepOp) (operand : Expr)
  | binary (line : Line) (op : BinaryOp) (lhs rhs : Expr)
  | assign (line : Line) (target value : Expr)
deriving BEq

namespace Expr

/-- The line of an expression. -/
def line : Expr → Line
  | .literal line _ | .var line _ | .field line _ | .unary line _ _ | .step line _ _
  | .binary line _ _ _ | .assign line _ _ => line

/-- Whether the expression may stand alone as a statement: it is there for its effect. -/
def isEffect : Expr → Bool
  | .step .. | .assign .. => true
  | _ => false

/-- The value of an int constant: an int literal or a negated one, where the negation wraps. -/
def intConstant? : Expr → Option Int32
  | .literal _ (.int v) => some v
  | .unary _ .negate (.literal _ (.int v)) => some (-v)
  | _ => none

end Expr

/-- A label of a switch. -/
inductive CaseLabel where
  | case (value : Expr)
  | otherwise
deriving BEq

/-- A statement. Every part of a `for` may be absent. -/
inductive Stmt where
  | block (line : Line) (body : List Stmt)
  | declare (line : Line) (name : String) (ty : Ty) (init : Option Expr)
  | expr (line : Line) (expr : Expr)
  | ifElse (line : Line) (condition : Expr) (thenPart : Stmt) (elsePart : Option Stmt)
  | whileDo (line : Line) (condition : Expr) (body : Stmt)
  | doWhile (line : Line) (body : Stmt) (condition : Expr)
  | forLoop (line : Line) (init : List Stmt) (condition : Option Expr) (update : List Stmt)
      (body : Option Stmt)
  | switch (line : Line) (discriminant : Expr) (groups : List (SwitchGroup CaseLabel Stmt))
  | breakOut (line : Line)
  | continueLoop (line : Line)
  | ret (line : Line) (value : Option Expr)
  | empty (line : Line)
deriving BEq

/-- The line of a statement. -/
def Stmt.line : Stmt → Line
  | .block line _ | .declare line _ _ _ | .expr line _ | .ifElse line _ _ _ | .whileDo line _ _
  | .doWhile line _ _ | .forLoop line _ _ _ _ | .switch line _ _ | .breakOut line
  | .continueLoop line | .ret line _ | .empty line => line

/-- A program: a receiver with named fields, and a body that may give back a value of a declared
type. -/
structure Program where
  name : String
  fields : List FieldDecl
  returns : Option Ty
  body : List Stmt
deriving BEq

end Source

end Stacklet
