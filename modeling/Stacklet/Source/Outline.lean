import Stacklet.Json.Basic
import Stacklet.Source.Printer

/-!
# Outlines

An outline is a tree of labels that shows the structure of a program to other tools: one node for
each statement and expression, with its line, and one for each part that has a role.
-/

namespace Stacklet.Source

/-- A tree of labels. -/
inductive Outline where
  | node (label : String) (children : List Outline)

namespace Outline

/-- A node without children. -/
def leaf (label : String) : Outline := .node label []

mutual

/-- The number of nodes. -/
def size : Outline → Nat
  | .node _ children => 1 + sizes children

/-- The number of nodes of several outlines. -/
def sizes : List Outline → Nat
  | [] => 0
  | o :: rest => o.size + sizes rest

end

mutual

/-- An outline is written as its label and, if there are any, its children. -/
def toJson : Outline → Json
  | .node label [] => .obj [("label", .str label)]
  | .node label (child :: children) =>
    .obj [("label", .str label), ("children", .arr (allToJson (child :: children)))]

/-- Outlines in order. -/
def allToJson : List Outline → List Json
  | [] => []
  | o :: rest => o.toJson :: allToJson rest

end

end Outline

open Outline (node leaf)

/-- A label with the line of a node. -/
def onLine (label : String) (line : Line) : String := label ++ ":" ++ toString line.toNat

/-- The label of an operator with one operand. -/
def unaryLabel : UnaryOp → String
  | .negate => "NegateOp"
  | .not => "LogicalNotOp"

/-- The label of a step. -/
def stepLabel : StepOp → String
  | .preInc => "PreIncrementOp"
  | .preDec => "PreDecrementOp"
  | .postInc => "PostIncrementOp"
  | .postDec => "PostDecrementOp"

/-- The outline of an expression. -/
def Expr.outline : Expr → Outline
  | .literal line v => leaf (onLine "Literal" line ++ " " ++ v.ty.name ++ " " ++ v.text)
  | .var line name => leaf (onLine "Variable" line ++ " " ++ name)
  | .field line name => leaf (onLine "FieldSelection" line ++ " " ++ name)
  | .unary line op e => node (onLine (unaryLabel op) line) [node "Operand" [e.outline]]
  | .step line op e => node (onLine (stepLabel op) line) [node "Operand" [e.outline]]
  | .binary line op l r =>
    node (onLine "BinaryExpression" line ++ " " ++ op.symbol)
      [node "Operand1" [l.outline], node "Operand2" [r.outline]]
  | .assign line t v =>
    node (onLine "AssignOp" line) [node "Operand1" [t.outline], node "Operand2" [v.outline]]

/-- The outline of a label of a switch. -/
def CaseLabel.outline : CaseLabel → Outline
  | .case e => node "Case" [e.outline]
  | .otherwise => leaf "Default"

/-- A part that is shown when it is there. -/
def optionalPart (role : String) (e : Option Expr) : List Outline :=
  match e with
  | none => []
  | some e => [node role [e.outline]]

/-- A part that is shown when it has any nodes. -/
def listPart (role : String) (outlines : List Outline) : List Outline :=
  if outlines.isEmpty then [] else [node role outlines]

namespace Stmt

mutual

/-- The outline of a statement. -/
def outline : Stmt → Outline
  | .block line body => node (onLine "Block" line) (outlines body)
  | .declare line name ty init =>
    node (onLine "LocalVariableDeclaration" line ++ " " ++ ty.name ++ " " ++ name)
      (optionalPart "Initializer" init)
  | .expr line e => node (onLine "StatementExpression" line) [e.outline]
  | .ifElse line c t none =>
    node (onLine "IfStatement" line) [node "Condition" [c.outline], node "ThenPart" [t.outline]]
  | .ifElse line c t (some e) =>
    node (onLine "IfStatement" line)
      [node "Condition" [c.outline], node "ThenPart" [t.outline], node "ElsePart" [e.outline]]
  | .whileDo line c body =>
    node (onLine "WhileStatement" line) [node "Condition" [c.outline], node "Body" [body.outline]]
  | .doWhile line body c =>
    node (onLine "DoStatement" line) [node "Body" [body.outline], node "Condition" [c.outline]]
  | .forLoop line init c update none =>
    node (onLine "ForStatement" line)
      (listPart "Init" (outlines init) ++ optionalPart "Condition" c
        ++ listPart "Update" (outlines update))
  | .forLoop line init c update (some body) =>
    node (onLine "ForStatement" line)
      (listPart "Init" (outlines init) ++ optionalPart "Condition" c
        ++ listPart "Update" (outlines update) ++ [node "Body" [body.outline]])
  | .switch line d groups =>
    node (onLine "SwitchStatement" line) (node "Condition" [d.outline] :: groupOutlines groups)
  | .breakOut line => leaf (onLine "BreakStatement" line)
  | .continueLoop line => leaf (onLine "ContinueStatement" line)
  | .ret line value => node (onLine "ReturnStatement" line) (optionalPart "Expression" value)
  | .empty line => leaf (onLine "EmptyStatement" line)

/-- The outlines of statements in order. -/
def outlines : List Stmt → List Outline
  | [] => []
  | s :: rest => s.outline :: outlines rest

/-- The outlines of the groups of a switch in order. -/
def groupOutlines : List (SwitchGroup CaseLabel Stmt) → List Outline
  | [] => []
  | ⟨labels, stmts⟩ :: rest =>
    node "SwitchStatementGroup" (labels.map CaseLabel.outline ++ outlines stmts)
      :: groupOutlines rest

end

end Stmt

/-- The outline of a program: its fields, if it has any, and its body. -/
def Program.outline (p : Program) : Outline :=
  node ("CompilationUnit " ++ p.name)
    (listPart "Fields" (p.fields.map fun f => leaf (f.ty.name ++ " " ++ f.name))
      ++ [node "Body" (Stmt.outlines p.body)])

end Stacklet.Source
