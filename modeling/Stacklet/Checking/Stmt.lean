import Stacklet.Checking.Expr
import Stacklet.Checking.Jumps

/-!
# Checking statements

Statements are checked in the order of the text. A declaration adds to the innermost scope; blocks,
the branches of an `if`, the bodies of loops and whole `for` statements have a scope of their own,
and the groups of a switch do not. Loops and switches are numbered in the order in which the check
enters them.
-/

namespace Stacklet

/-- What the check of a statement may change: the names in scope and the number of the next loop or
switch. -/
structure CheckState where
  names : Names
  nextTarget : Target

/-- A check of statements. -/
abbrev Check := StateT CheckState Reporting

/-- What surrounds a statement: the declared result of the program, and the constructs that jumps may
refer to. -/
structure Surroundings where
  returns : Option Ty
  jumps : JumpScope

namespace Surroundings

/-- The inside of a construct. -/
def enter (env : Surroundings) (construct : Construct) (target : Target) : Surroundings :=
  { env with jumps := ⟨construct, target⟩ :: env.jumps }

end Surroundings

namespace Check

/-- Reports a diagnostic. -/
def report (d : Diagnostic) : Check Unit := StateT.lift (Stacklet.report d)

/-- Reports a diagnostic unless a condition holds. -/
def reportUnless (holds : Bool) (d : Diagnostic) : Check Unit :=
  StateT.lift (Stacklet.reportUnless holds d)

/-- Checks an expression against the names in scope. -/
def expr (e : Source.Expr) : Check Typed.Expr := do StateT.lift (e.check (← get).names)

/-- Runs a check in a scope of its own. -/
def inScope {α : Type} (check : Check α) : Check α := do
  modify fun s => { s with names := s.names.openScope }
  let result ← check
  modify fun s => { s with names := s.names.closeScope }
  return result

/-- The number of a new loop or switch. -/
def freshTarget : Check Target := do
  let target := (← get).nextTarget
  modify fun s => { s with nextTarget := s.nextTarget + 1 }
  return target

/-- Checks a condition, which has to be boolean. -/
def condition (construct : String) (e : Source.Expr) : Check Typed.Expr := do
  let typed ← expr e
  reportUnless (typed.ty.agrees .boolean) (.badCondition typed.line construct typed.ty)
  return typed

/-- Checks an expression that may be absent. -/
def optional (check : Source.Expr → Check Typed.Expr) :
    Option Source.Expr → Check (Option Typed.Expr)
  | none => return none
  | some e => do return some (← check e)

/-- Checks the value of a new local. -/
def initializer (ty : Ty) (e : Source.Expr) : Check Typed.Expr := do
  let typed ← expr e
  let _ ← StateT.lift (expect typed.line typed.ty ty)
  return typed

/-- Enters a local whose value has been checked, unless its name is taken. -/
def enter (line : Line) (name : String) (init : Option Typed.Expr) :
    Option (LocalVar × Names) → Check Typed.Stmt
  | some (var, names) => do
    modify fun s => { s with names := names }
    return .declare line var init
  | none => do
    report (.repeatedLocal line name)
    return .empty line

/-- Checks a declaration. The value of a local does not see its name. -/
def declare (line : Line) (name : String) (ty : Ty) (init : Option Source.Expr) :
    Check Typed.Stmt := do
  let init ← optional (initializer ty) init
  enter line name init ((← get).names.declare? name ty)

/-- Checks the result that a `return` gives back. -/
def result (line : Line) : Option Ty → Option Typed.Expr → Check Unit
  | some expected, some value =>
    reportUnless (value.ty.agrees expected) (.badReturn line value.ty expected)
  | some expected, none => report (.missingReturn line expected)
  | none, some _ => report (.needlessReturn line)
  | none, none => return ()

end Check

/-- The labels of a switch met so far. -/
structure LabelsSeen where
  cases : List Int32
  hasDefault : Bool

namespace LabelsSeen

/-- No labels yet. -/
def none : LabelsSeen := ⟨[], false⟩

end LabelsSeen

namespace Source

/-- The line of a case label: that of its expression if it has one, else that of the switch. -/
def CaseLabel.lineIn (switchLine : Line) (e : Expr) : Line := if e.line = 0 then switchLine else e.line

/-- Checks the labels of a group. A label that is not constant is left out; a repeated one is kept. -/
def CaseLabel.checkAll (line : Line) (seen : LabelsSeen) :
    List CaseLabel → Reporting (List Typed.CaseLabel × LabelsSeen)
  | [] => pure ([], seen)
  | .case e :: rest =>
    match e.intConstant? with
    | some value => do
      reportUnless (!seen.cases.contains value) (.repeatedCase (lineIn line e) value)
      let checked ← checkAll line { seen with cases := value :: seen.cases } rest
      return (.case value :: checked.1, checked.2)
    | none => do
      report (.variableCase (lineIn line e) e)
      checkAll line seen rest
  | .otherwise :: rest => do
    reportUnless (!seen.hasDefault) (.repeatedDefault line)
    let checked ← checkAll line { seen with hasDefault := true } rest
    return (.otherwise :: checked.1, checked.2)

namespace Stmt

mutual

/-- Checks a statement. -/
def check (env : Surroundings) : Stmt → Check Typed.Stmt
  | .block line body => do return .block line (← Check.inScope (checkAll env body))
  | .declare line name ty init => Check.declare line name ty init
  | .expr line e => do
    Check.reportUnless e.isEffect (.noEffect line e)
    return .expr line (← Check.expr e)
  | .ifElse line c t none => do
    let c ← Check.condition "if" c
    return .ifElse line c (← Check.inScope (check env t)) none
  | .ifElse line c t (some e) => do
    let c ← Check.condition "if" c
    let t ← Check.inScope (check env t)
    return .ifElse line c t (some (← Check.inScope (check env e)))
  | .whileDo line c body => do
    let c ← Check.condition "while" c
    let target ← Check.freshTarget
    return .whileDo line target c (← Check.inScope (check (env.enter .loop target) body))
  | .doWhile line body c => do
    let target ← Check.freshTarget
    let body ← Check.inScope (check (env.enter .loop target) body)
    return .doWhile line target body (← Check.condition "do" c)
  | .forLoop line init c update none => Check.inScope do
    let init ← checkAll env init
    let c ← Check.optional (Check.condition "for") c
    let target ← Check.freshTarget
    let update ← checkAll (env.enter .loop target) update
    return .forLoop line target init c update none
  | .forLoop line init c update (some body) => Check.inScope do
    let init ← checkAll env init
    let c ← Check.optional (Check.condition "for") c
    let target ← Check.freshTarget
    let update ← checkAll (env.enter .loop target) update
    let body ← Check.inScope (check (env.enter .loop target) body)
    return .forLoop line target init c update (some body)
  | .switch line d groups => do
    let d ← Check.expr d
    Check.reportUnless (d.ty.agrees .int) (.badDiscriminant line d.ty)
    let target ← Check.freshTarget
    return .switch line target d (← checkGroups (env.enter .switch target) line .none groups)
  | .breakOut line => do
    let target := env.jumps.breakTarget?
    Check.reportUnless target.isSome (.strayBreak line)
    return .breakOut line target
  | .continueLoop line => do
    let target := env.jumps.continueTarget?
    Check.reportUnless target.isSome (.strayContinue line)
    return .continueLoop line target
  | .ret line value => do
    let value ← Check.optional Check.expr value
    Check.result line env.returns value
    return .ret line value
  | .empty line => return .empty line

/-- Checks statements in order. -/
def checkAll (env : Surroundings) : List Stmt → Check (List Typed.Stmt)
  | [] => return []
  | s :: rest => do
    let s ← check env s
    return s :: (← checkAll env rest)

/-- Checks the groups of a switch in order, each with the labels of those before it. -/
def checkGroups (env : Surroundings) (line : Line) (seen : LabelsSeen) :
    List (SwitchGroup CaseLabel Stmt) → Check (List (SwitchGroup Typed.CaseLabel Typed.Stmt))
  | [] => return []
  | ⟨labels, stmts⟩ :: rest => do
    let checked ← StateT.lift (CaseLabel.checkAll line seen labels)
    let stmts ← checkAll env stmts
    return ⟨checked.1, stmts⟩ :: (← checkGroups env line checked.2 rest)

end

end Stmt

end Source

end Stacklet
