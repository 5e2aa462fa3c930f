import Stacklet.Source.Basic

/-!
# Typed trees

What checking makes of a source tree: every expression carries its type, every name is resolved to a
place, and every `break` and `continue` names the construct that it leaves or repeats. An expression
that failed the check is an `error` node.
-/

namespace Stacklet

/-- A local variable: its slot on the machine and its type. -/
structure LocalVar where
  slot : UInt16
  ty : Ty
deriving DecidableEq

/-- A field of the receiver: its index in the list of fields and its type. -/
structure FieldRef where
  index : UInt16
  ty : Ty
deriving DecidableEq

/-- A place that can be read and assigned. -/
inductive Place where
  | ofLocal (var : LocalVar)
  | ofField (field : FieldRef)
deriving DecidableEq

/-- The type of a place. -/
def Place.ty : Place → Ty
  | .ofLocal var => var.ty
  | .ofField field => field.ty

/-- The number of a loop or switch, by which jumps name it. -/
abbrev Target := Nat

namespace Typed

/-- A typed expression. -/
inductive Expr where
  | literal (line : Line) (ty : Ty) (value : Literal)
  | load (line : Line) (ty : Ty) (place : Place)
  | negate (line : Line) (ty : Ty) (operand : Expr)
  | not (line : Line) (ty : Ty) (operand : Expr)
  | step (line : Line) (ty : Ty) (op : StepOp) (place : Place)
  | binary (line : Line) (ty : Ty) (op : BinaryOp) (lhs rhs : Expr)
  | assign (line : Line) (ty : Ty) (place : Place) (value : Expr)
  | error (line : Line) (ty : Ty)

namespace Expr

/-- The line of an expression. -/
def line : Expr → Line
  | .literal line _ _ | .load line _ _ | .negate line _ _ | .not line _ _ | .step line _ _ _
  | .binary line _ _ _ _ | .assign line _ _ _ | .error line _ => line

/-- The type of an expression. -/
def ty : Expr → Ty
  | .literal _ ty _ | .load _ ty _ | .negate _ ty _ | .not _ ty _ | .step _ ty _ _
  | .binary _ ty _ _ _ | .assign _ ty _ _ | .error _ ty => ty

/-- An expression that failed the check. -/
def failed (line : Line) : Expr := .error line .any

/-- The lines of the error nodes, in the order of the tree. -/
def errorLines : Expr → List Line
  | .literal .. | .load .. | .step .. => []
  | .negate _ _ e | .not _ _ e | .assign _ _ _ e => e.errorLines
  | .binary _ _ _ l r => l.errorLines ++ r.errorLines
  | .error line _ => [line]

end Expr

/-- A label of a switch: a constant, or the label of the default. -/
inductive CaseLabel where
  | case (value : Int32)
  | otherwise
deriving DecidableEq

/-- A typed statement. A jump without a target was misplaced. -/
inductive Stmt where
  | block (line : Line) (body : List Stmt)
  | declare (line : Line) (var : LocalVar) (init : Option Expr)
  | expr (line : Line) (expr : Expr)
  | ifElse (line : Line) (condition : Expr) (thenPart : Stmt) (elsePart : Option Stmt)
  | whileDo (line : Line) (target : Target) (condition : Expr) (body : Stmt)
  | doWhile (line : Line) (target : Target) (body : Stmt) (condition : Expr)
  | forLoop (line : Line) (target : Target) (init : List Stmt) (condition : Option Expr)
      (update : List Stmt) (body : Option Stmt)
  | switch (line : Line) (target : Target) (discriminant : Expr)
      (groups : List (SwitchGroup CaseLabel Stmt))
  | breakOut (line : Line) (target : Option Target)
  | continueLoop (line : Line) (target : Option Target)
  | ret (line : Line) (value : Option Expr)
  | empty (line : Line)

namespace Stmt

/-- The lines of the error nodes of an expression that may be absent. -/
def optionErrorLines (e : Option Expr) : List Line := e.elim [] Expr.errorLines

mutual

/-- The lines of the error nodes, in the order of the tree. -/
def errorLines : Stmt → List Line
  | .block _ body => allErrorLines body
  | .declare _ _ init => optionErrorLines init
  | .expr _ e => e.errorLines
  | .ifElse _ c t none => c.errorLines ++ t.errorLines
  | .ifElse _ c t (some e) => c.errorLines ++ t.errorLines ++ e.errorLines
  | .whileDo _ _ c body => c.errorLines ++ body.errorLines
  | .doWhile _ _ body c => body.errorLines ++ c.errorLines
  | .forLoop _ _ init c update none =>
    allErrorLines init ++ optionErrorLines c ++ allErrorLines update
  | .forLoop _ _ init c update (some body) =>
    allErrorLines init ++ optionErrorLines c ++ allErrorLines update ++ body.errorLines
  | .switch _ _ d groups => d.errorLines ++ groupErrorLines groups
  | .breakOut .. | .continueLoop .. | .empty .. => []
  | .ret _ value => optionErrorLines value

/-- The lines of the error nodes of statements in order. -/
def allErrorLines : List Stmt → List Line
  | [] => []
  | s :: rest => s.errorLines ++ allErrorLines rest

/-- The lines of the error nodes of the groups of a switch in order. -/
def groupErrorLines : List (SwitchGroup CaseLabel Stmt) → List Line
  | [] => []
  | ⟨_, stmts⟩ :: rest => allErrorLines stmts ++ groupErrorLines rest

end

end Stmt

/-- Whether a group of a switch has the label of the default. -/
def hasDefault (group : SwitchGroup CaseLabel Stmt) : Bool := group.labels.contains .otherwise

/-- A typed program. Its locals take `maxLocals` slots, that of the receiver included. -/
structure Program where
  name : String
  fields : List FieldDecl
  returns : Option Ty
  maxLocals : UInt16
  body : List Stmt

end Typed

end Stacklet
