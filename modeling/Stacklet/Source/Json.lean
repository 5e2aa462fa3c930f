import Stacklet.Json.Decode
import Stacklet.Source.Basic

/-!
# Programs in JSON

A program is written with all its members in a fixed order, absent parts as null and statements
without parts as their names. Reading accepts more: see `Stacklet.Json.Decode` for the rules of
records and choices. Members with a value of their own when they are missing are lines (0), and the
lists of fields, of the parts of a `for`, and of the statements of a switch group (empty).
-/

namespace Stacklet

open Json (Slot)

namespace Ty

/-- The type of a name. -/
def ofName? : String → Option Ty
  | "int" => some .int
  | "long" => some .long
  | "double" => some .double
  | "boolean" => some .boolean
  | "any" => some .any
  | _ => none

/-- A type is written as its name. -/
def toJson (t : Ty) : Json := .str t.name

/-- Reads a type. -/
def read? (depth : Nat) (j : Json) : Option Ty := j.choice? ofName? depth

@[simp] theorem ofName?_name (t : Ty) : ofName? t.name = some t := by cases t <;> rfl

end Ty

namespace FieldDecl

/-- A field is written with its name and type. -/
def toJson (f : FieldDecl) : Json := .obj [("name", .str f.name), ("ty", f.ty.toJson)]

/-- Reads a field. -/
def read? : Nat → Json → Option FieldDecl
  | 0, _ => none
  | depth + 1, j => do
    let [name, ty] ← j.slots? ["name", "ty"] | none
    return { name := ← name.required? Json.str?, ty := ← ty.required? (Ty.read? depth) }

end FieldDecl

namespace Literal

/-- A constant is written under the name of its type. -/
def toJson : Literal → Json
  | .int v => .obj [("int", .int v.toInt)]
  | .long v => .obj [("long", .int v.toInt)]
  | .double v => .obj [("double", .double v)]
  | .bool v => .obj [("bool", .bool v)]

/-- Reads a constant. -/
def read? : Nat → Json → Option Literal
  | _ + 1, .obj [("int", v)] => v.i32?.map .int
  | _ + 1, .obj [("long", v)] => v.i64?.map .long
  | _ + 1, .obj [("double", v)] => v.f64?.map .double
  | _ + 1, .obj [("bool", v)] => v.bool?.map .bool
  | _, _ => none

end Literal

namespace UnaryOp

/-- The name of an operator. -/
def jsonName : UnaryOp → String
  | .negate => "negate"
  | .not => "not"

/-- The operator of a name. -/
def ofJsonName? : String → Option UnaryOp
  | "negate" => some .negate
  | "not" => some .not
  | _ => none

@[simp] theorem ofJsonName?_jsonName (op : UnaryOp) : ofJsonName? op.jsonName = some op := by
  cases op <;> rfl

end UnaryOp

namespace StepOp

/-- The name of an operator. -/
def jsonName : StepOp → String
  | .preInc => "pre_inc"
  | .preDec => "pre_dec"
  | .postInc => "post_inc"
  | .postDec => "post_dec"

/-- The operator of a name. -/
def ofJsonName? : String → Option StepOp
  | "pre_inc" => some .preInc
  | "pre_dec" => some .preDec
  | "post_inc" => some .postInc
  | "post_dec" => some .postDec
  | _ => none

@[simp] theorem ofJsonName?_jsonName (op : StepOp) : ofJsonName? op.jsonName = some op := by
  cases op <;> rfl

end StepOp

namespace BinaryOp

/-- The name of an operator. -/
def jsonName : BinaryOp → String
  | .arith op => op.mnemonic
  | .compare cond => cond.mnemonic
  | .logic .and => "and"
  | .logic .or => "or"

/-- The operator of a name. -/
def ofJsonName? : String → Option BinaryOp
  | "add" => some (.arith .add)
  | "sub" => some (.arith .sub)
  | "mul" => some (.arith .mul)
  | "div" => some (.arith .div)
  | "rem" => some (.arith .rem)
  | "lt" => some (.compare .lt)
  | "le" => some (.compare .le)
  | "gt" => some (.compare .gt)
  | "ge" => some (.compare .ge)
  | "eq" => some (.compare .eq)
  | "ne" => some (.compare .ne)
  | "and" => some (.logic .and)
  | "or" => some (.logic .or)
  | _ => none

@[simp] theorem ofJsonName?_jsonName (op : BinaryOp) : ofJsonName? op.jsonName = some op := by
  rcases op with op | op | op <;> cases op <;> rfl

end BinaryOp

namespace Source

namespace Expr

/-- An expression with its line, its form and its parts. -/
def jsonNode (line : Line) (form : String) (parts : Json) : Json :=
  .obj [("line", .nat line.toNat), ("kind", .obj [(form, parts)])]

/-- An expression is written as its line and, under the name of its form, its parts. -/
def toJson : Expr → Json
  | .literal line v => jsonNode line "literal" v.toJson
  | .var line name => jsonNode line "var" (.str name)
  | .field line name => jsonNode line "field" (.str name)
  | .unary line op e =>
    jsonNode line "unary" (.obj [("op", .str op.jsonName), ("operand", e.toJson)])
  | .step line op e =>
    jsonNode line "inc_dec" (.obj [("op", .str op.jsonName), ("operand", e.toJson)])
  | .binary line op l r =>
    jsonNode line "binary" (.obj [("op", .str op.jsonName), ("lhs", l.toJson), ("rhs", r.toJson)])
  | .assign line t v => jsonNode line "assign" (.obj [("target", t.toJson), ("value", v.toJson)])

mutual

/-- Reads an expression. -/
def read? : Nat → Json → Option Expr
  | 0, _ => none
  | depth + 1, j => do
    let [line, kind] ← j.slots? ["line", "kind"] | none
    let line ← line.orElse? 0 Json.u32?
    let .given kind := kind | none
    readForm? line depth kind

/-- Reads the form of an expression. -/
def readForm? (line : Line) : Nat → Json → Option Expr
  | depth + 1, .obj [(form, parts)] =>
    match form with
    | "literal" => (Literal.read? depth parts).map (.literal line)
    | "var" => parts.str?.map (.var line)
    | "field" => parts.str?.map (.field line)
    | _ => readParts? line form depth parts
  | _, _ => none

/-- Reads the parts of an expression that is not a leaf. -/
def readParts? (line : Line) (form : String) : Nat → Json → Option Expr
  | 0, _ => none
  | depth + 1, j =>
    match form with
    | "unary" => do
      let [op, .given operand] ← j.slots? ["op", "operand"] | none
      let op ← op.required? (Json.choice? UnaryOp.ofJsonName? depth)
      return .unary line op (← read? depth operand)
    | "inc_dec" => do
      let [op, .given operand] ← j.slots? ["op", "operand"] | none
      let op ← op.required? (Json.choice? StepOp.ofJsonName? depth)
      return .step line op (← read? depth operand)
    | "binary" => do
      let [op, .given lhs, .given rhs] ← j.slots? ["op", "lhs", "rhs"] | none
      let op ← op.required? (Json.choice? BinaryOp.ofJsonName? depth)
      return .binary line op (← read? depth lhs) (← read? depth rhs)
    | "assign" => do
      let [.given target, .given value] ← j.slots? ["target", "value"] | none
      return .assign line (← read? depth target) (← read? depth value)
    | _ => none

end

end Expr

namespace CaseLabel

/-- A label is written as its expression, or as the word for the default. -/
def toJson : CaseLabel → Json
  | .case e => .obj [("case", e.toJson)]
  | .otherwise => .str "default"

/-- Reads a label. -/
def read? : Nat → Json → Option CaseLabel
  | _, .str "default" => some .otherwise
  | _ + 1, .obj [("default", .null)] => some .otherwise
  | depth + 1, .obj [("case", e)] => (Expr.read? depth e).map .case
  | _, _ => none

end CaseLabel

namespace Stmt

/-- A statement with its line and its form. -/
def jsonNode (line : Line) (kind : Json) : Json :=
  .obj [("line", .nat line.toNat), ("kind", kind)]

mutual

/-- A statement is written as its line and, under the name of its form, its parts. -/
def toJson : Stmt → Json
  | .block line body => jsonNode line (.obj [("block", .arr (allToJson body))])
  | .declare line name ty init =>
    jsonNode line (.obj [("local",
      .obj [("name", .str name), ("ty", ty.toJson), ("init", .ofOption Expr.toJson init)])])
  | .expr line e => jsonNode line (.obj [("expr", e.toJson)])
  | .ifElse line c t e =>
    jsonNode line (.obj [("if",
      .obj [("condition", c.toJson), ("then_stmt", t.toJson), ("else_stmt", optionToJson e)])])
  | .whileDo line c body =>
    jsonNode line (.obj [("while", .obj [("condition", c.toJson), ("body", body.toJson)])])
  | .doWhile line body c =>
    jsonNode line (.obj [("do", .obj [("body", body.toJson), ("condition", c.toJson)])])
  | .forLoop line init c update body =>
    jsonNode line (.obj [("for",
      .obj [("init", .arr (allToJson init)), ("condition", .ofOption Expr.toJson c),
        ("update", .arr (allToJson update)), ("body", optionToJson body)])])
  | .switch line d groups =>
    jsonNode line (.obj [("switch",
      .obj [("discriminant", d.toJson), ("groups", .arr (groupsToJson groups))])])
  | .breakOut line => jsonNode line (.str "break")
  | .continueLoop line => jsonNode line (.str "continue")
  | .ret line value =>
    jsonNode line (.obj [("return", .obj [("value", .ofOption Expr.toJson value)])])
  | .empty line => jsonNode line (.str "empty")

/-- Statements in order. -/
def allToJson : List Stmt → List Json
  | [] => []
  | s :: rest => s.toJson :: allToJson rest

/-- A statement that may be absent. -/
def optionToJson : Option Stmt → Json
  | none => .null
  | some s => s.toJson

/-- The groups of a switch in order. -/
def groupsToJson : List (SwitchGroup CaseLabel Stmt) → List Json
  | [] => []
  | ⟨labels, stmts⟩ :: rest =>
    .obj [("labels", .arr (labels.map CaseLabel.toJson)), ("block", .arr (allToJson stmts))]
      :: groupsToJson rest

end

/-- The statement without parts that has a name. -/
def ofJsonName? (line : Line) : String → Option Stmt
  | "break" => some (.breakOut line)
  | "continue" => some (.continueLoop line)
  | "empty" => some (.empty line)
  | _ => none

mutual

/-- Reads a statement. -/
def read? : Nat → Json → Option Stmt
  | 0, _ => none
  | depth + 1, j => do
    let [line, kind] ← j.slots? ["line", "kind"] | none
    let line ← line.orElse? 0 Json.u32?
    let .given kind := kind | none
    readForm? line depth kind

/-- Reads statements in order. -/
def readAll? : Nat → Json → Option (List Stmt)
  | depth + 1, .arr items => items.mapM (read? depth)
  | _, _ => none

/-- Reads the form of a statement. -/
def readForm? (line : Line) : Nat → Json → Option Stmt
  | _, .str name | _ + 1, .obj [(name, .null)] => ofJsonName? line name
  | depth + 1, .obj [(form, parts)] =>
    match form with
    | "block" => (readAll? depth parts).map (.block line)
    | "expr" => (Expr.read? depth parts).map (.expr line)
    | _ => readParts? line form depth parts
  | _, _ => none

/-- Reads the parts of a statement that is made of several. -/
def readParts? (line : Line) (form : String) : Nat → Json → Option Stmt
  | 0, _ => none
  | depth + 1, j =>
    match form with
    | "local" => do
      let [name, ty, init] ← j.slots? ["name", "ty", "init"] | none
      return .declare line (← name.required? Json.str?) (← ty.required? (Ty.read? depth))
        (← init.optional? (Expr.read? depth))
    | "if" => do
      let [condition, .given thenPart, elsePart] ←
        j.slots? ["condition", "then_stmt", "else_stmt"] | none
      return .ifElse line (← condition.required? (Expr.read? depth)) (← read? depth thenPart)
        (← elsePart.optional? fun j => read? depth j)
    | "while" => do
      let [condition, .given body] ← j.slots? ["condition", "body"] | none
      return .whileDo line (← condition.required? (Expr.read? depth)) (← read? depth body)
    | "do" => do
      let [.given body, condition] ← j.slots? ["body", "condition"] | none
      return .doWhile line (← read? depth body) (← condition.required? (Expr.read? depth))
    | "for" => do
      let [init, condition, update, body] ←
        j.slots? ["init", "condition", "update", "body"] | none
      return .forLoop line (← init.orElse? [] fun j => readAll? depth j)
        (← condition.optional? (Expr.read? depth)) (← update.orElse? [] fun j => readAll? depth j)
        (← body.optional? fun j => read? depth j)
    | "switch" => do
      let [discriminant, .given groups] ← j.slots? ["discriminant", "groups"] | none
      return .switch line (← discriminant.required? (Expr.read? depth)) (← readGroups? depth groups)
    | "return" => do
      let [value] ← j.slots? ["value"] | none
      return .ret line (← value.optional? (Expr.read? depth))
    | _ => none

/-- Reads the groups of a switch in order. -/
def readGroups? : Nat → Json → Option (List (SwitchGroup CaseLabel Stmt))
  | depth + 1, .arr items => items.mapM (readGroup? depth)
  | _, _ => none

/-- Reads a group of a switch. -/
def readGroup? : Nat → Json → Option (SwitchGroup CaseLabel Stmt)
  | 0, _ => none
  | depth + 1, j => do
    let [labels, stmts] ← j.slots? ["labels", "block"] | none
    return ⟨← labels.required? (Json.list? CaseLabel.read? depth),
      ← stmts.orElse? [] fun j => readAll? depth j⟩

end

end Stmt

namespace Program

/-- A program is written with all its members. -/
def toJson (p : Program) : Json :=
  .obj [("name", .str p.name), ("fields", .arr (p.fields.map FieldDecl.toJson)),
    ("returns", .ofOption Ty.toJson p.returns), ("body", .arr (Stmt.allToJson p.body))]

/-- Reads a program at a depth of nesting. -/
def read? : Nat → Json → Option Program
  | 0, _ => none
  | depth + 1, j => do
    let [name, fields, returns, body] ← j.slots? ["name", "fields", "returns", "body"] | none
    return {
      name := ← name.required? Json.str?
      fields := ← fields.orElse? [] (Json.list? FieldDecl.read? depth)
      returns := ← returns.optionalOrElse? none (Ty.read? depth)
      body := ← body.required? (Stmt.readAll? depth) }

/-- The program of a JSON value. -/
def ofJson? (j : Json) : Option Program := read? Json.maxDepth j

end Program

end Source

end Stacklet
