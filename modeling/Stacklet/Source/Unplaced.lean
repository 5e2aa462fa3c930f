import Stacklet.Source.Basic

/-!
# Trees without statement lines

A tree put together in code, and not read from a text, has no lines of its own for statements: only
an expression statement has one, that of its expression. `Program.unplaced` is the tree in that form.
Expressions keep their lines, but for the int literals of case labels, which have none.
-/

namespace Stacklet.Source

/-- A statement for an expression stands on the line of the expression. -/
def Stmt.ofExpr (e : Expr) : Stmt := .expr e.line e

/-- A case label for an int. -/
def CaseLabel.ofInt (value : Int32) : CaseLabel := .case (.literal 0 (.int value))

/-- A case label with no line on an int literal. -/
def CaseLabel.unplaced : CaseLabel → CaseLabel
  | .case (.literal _ (.int v)) => .ofInt v
  | label => label

mutual

/-- The statement with lines on expressions only. -/
def Stmt.unplaced : Stmt → Stmt
  | .block _ body => .block 0 (unplacedAll body)
  | .declare _ name ty init => .declare 0 name ty init
  | .expr _ e => .ofExpr e
  | .ifElse _ c t none => .ifElse 0 c t.unplaced none
  | .ifElse _ c t (some e) => .ifElse 0 c t.unplaced (some e.unplaced)
  | .whileDo _ c body => .whileDo 0 c body.unplaced
  | .doWhile _ body c => .doWhile 0 body.unplaced c
  | .forLoop _ init c update none => .forLoop 0 (unplacedAll init) c (unplacedAll update) none
  | .forLoop _ init c update (some body) =>
    .forLoop 0 (unplacedAll init) c (unplacedAll update) (some body.unplaced)
  | .switch _ d groups => .switch 0 d (unplacedGroups groups)
  | .breakOut _ => .breakOut 0
  | .continueLoop _ => .continueLoop 0
  | .ret _ value => .ret 0 value
  | .empty _ => .empty 0

/-- Every statement of a list with lines on expressions only. -/
def Stmt.unplacedAll : List Stmt → List Stmt
  | [] => []
  | s :: rest => s.unplaced :: unplacedAll rest

/-- Every group of a switch with lines on expressions only. -/
def Stmt.unplacedGroups : List (SwitchGroup CaseLabel Stmt) → List (SwitchGroup CaseLabel Stmt)
  | [] => []
  | ⟨labels, stmts⟩ :: rest =>
    ⟨labels.map CaseLabel.unplaced, unplacedAll stmts⟩ :: unplacedGroups rest

end

/-- The program with lines on expressions only. -/
def Program.unplaced (p : Program) : Program := { p with body := Stmt.unplacedAll p.body }

end Stacklet.Source
