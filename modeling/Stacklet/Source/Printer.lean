import Stacklet.Decimal.Style
import Stacklet.Source.Basic

/-!
# Source trees as text

The text of a tree is its source on one line. Binary operations stand in parentheses, so it shows how
the tree nests. Error messages quote expressions in this form.
-/

namespace Stacklet

namespace Literal

/-- Doubles that have a fraction are written without an exponent. -/
def doubleStyle : Decimal.Style where
  positional := none
  keepsPoint := false
  plus := false
  tie := .up

/-- A whole double shows all its digits. -/
def doubleText (x : Float) : String :=
  match Decimal.Parts.ofFloat x with
  | .finite negative mantissa exponent =>
    match Decimal.wholeDigits? mantissa exponent with
    | some digits => (if negative then "-" else "") ++ toString digits ++ ".0"
    | none => doubleStyle.write x
  | _ => doubleStyle.write x

/-- A constant as it is written. -/
def text : Literal → String
  | .int v => toString v.toInt
  | .long v => toString v.toInt ++ "L"
  | .double v => doubleText v
  | .bool v => if v then "true" else "false"

end Literal

namespace Source

/-- An expression as it is written. -/
def Expr.text : Expr → String
  | .literal _ v => v.text
  | .var _ name => name
  | .field _ name => "this." ++ name
  | .unary _ op e => op.symbol ++ e.text
  | .step _ op e => if op.isPre then op.symbol ++ e.text else e.text ++ op.symbol
  | .binary _ op l r => "(" ++ l.text ++ " " ++ op.symbol ++ " " ++ r.text ++ ")"
  | .assign _ t v => t.text ++ " = " ++ v.text

/-- A label of a switch as it is written. -/
def CaseLabel.text : CaseLabel → String
  | .case e => "case " ++ e.text ++ ":"
  | .otherwise => "default:"

namespace Stmt

/-- A statement inside the head of a `for`, where it stands without its semicolon. -/
def withoutSemicolon (text : String) : String :=
  if text.endsWith ";" then (text.dropEnd 1).toString else text

/-- The head of a `for`, up to its closing parenthesis. -/
def forHead (init : List String) (c : Option Expr) (update : List String) : String :=
  let join (parts : List String) := ", ".intercalate (parts.map withoutSemicolon)
  "for (" ++ join init ++ ";" ++ (c.elim "" (" " ++ ·.text)) ++ ";"
    ++ (if update.isEmpty then "" else " " ++ join update) ++ ")"

mutual

/-- A statement as it is written. -/
def text : Stmt → String
  | .block _ body => "\x7b" ++ String.join ((texts body).map (" " ++ ·)) ++ " \x7d"
  | .declare _ name ty none => ty.name ++ " " ++ name ++ ";"
  | .declare _ name ty (some init) => ty.name ++ " " ++ name ++ " = " ++ init.text ++ ";"
  | .expr _ e => e.text ++ ";"
  | .ifElse _ c t none => "if (" ++ c.text ++ ") " ++ t.text
  | .ifElse _ c t (some e) => "if (" ++ c.text ++ ") " ++ t.text ++ " else " ++ e.text
  | .whileDo _ c body => "while (" ++ c.text ++ ") " ++ body.text
  | .doWhile _ body c => "do " ++ body.text ++ " while (" ++ c.text ++ ");"
  | .forLoop _ init c update none => forHead (texts init) c (texts update) ++ ";"
  | .forLoop _ init c update (some body) =>
    forHead (texts init) c (texts update) ++ " " ++ body.text
  | .switch _ d groups => "switch (" ++ d.text ++ ") \x7b" ++ groupsText groups ++ " \x7d"
  | .breakOut _ => "break;"
  | .continueLoop _ => "continue;"
  | .ret _ none => "return;"
  | .ret _ (some value) => "return " ++ value.text ++ ";"
  | .empty _ => ";"

/-- Statements as they are written, one by one. -/
def texts : List Stmt → List String
  | [] => []
  | s :: rest => s.text :: texts rest

/-- The groups of a switch as they are written. -/
def groupsText : List (SwitchGroup CaseLabel Stmt) → String
  | [] => ""
  | ⟨labels, stmts⟩ :: rest =>
    String.join (labels.map (" " ++ ·.text)) ++ String.join ((texts stmts).map (" " ++ ·))
      ++ groupsText rest

end

end Stmt

/-- A program as it is written: a line for every field and every statement of the body. -/
def Program.text (p : Program) : String :=
  "unit " ++ p.name ++ " \x7b\n"
    ++ String.join (p.fields.map fun f => "    " ++ f.ty.name ++ " " ++ f.name ++ ";\n")
    ++ String.join (p.body.map fun s => "    " ++ s.text ++ "\n")
    ++ "\x7d"

end Source

end Stacklet
