import Stacklet.Proofs.Evaluation.Expr

/-!
# Evaluating statements

A statement ends normally or with a jump: a `break` or `continue` of a loop or switch around it, or a
`return`. A loop passes through its test, its body and its update until the test fails or a jump leaves
it. Each loop and each update may start again as often as there is fuel, so that evaluation is total; a
program that needs no more than some fuel has a result, and one that needs more than any runs forever.
-/

namespace Stacklet

/-- How a statement ends. -/
inductive Exit where
  | normal
  | breaks (target : Target)
  | continues (target : Target)
  | returns (value : Option Value)

namespace Exit

/-- Whether control stays in a loop after a part of it ended. -/
def staysIn (target : Target) : Exit → Bool
  | .normal => true
  | .continues t => t == target
  | _ => false

/-- How a construct ends when a part of it ended and control does not stay in it. -/
def out (target : Target) : Exit → Exit
  | .breaks t => if t = target then .normal else .breaks t
  | exit => exit

end Exit

namespace Eval

/-- Halts. -/
def halt {α : Type} (h : Halt) : Eval α := fun _ => .error h

/-- Goes on if a statement ended normally. -/
def andThen (first second : Eval Exit) : Eval Exit := do
  match ← first with
  | .normal => second
  | exit => return exit

end Eval

/-- The parts of a loop. -/
structure Loop where
  target : Target
  test : Eval Bool
  body : Eval Exit
  update : Eval Exit

namespace Loop

/-- Goes on in the loop after a part of it, if control stays in it. -/
def proceed (l : Loop) (part next : Eval Exit) : Eval Exit := do
  let exit ← part
  if exit.staysIn l.target then next else return exit.out l.target

/-- Runs the update and goes on. A `continue` in the update starts it again. -/
def runUpdate (l : Loop) (next : Eval Exit) : Nat → Eval Exit
  | 0 => Eval.halt .outOfFuel
  | left + 1 => do
    match ← l.update with
    | .normal => next
    | .continues t => if t = l.target then l.runUpdate next left else return .continues t
    | exit => return exit.out l.target

/-- Runs the body and the update, and goes on. -/
def pass (l : Loop) (fuel : Nat) (next : Eval Exit) : Eval Exit := l.proceed l.body (l.runUpdate next fuel)

/-- Runs the loop from its test on. -/
def run (l : Loop) (fuel : Nat) : Nat → Eval Exit
  | 0 => Eval.halt .outOfFuel
  | left + 1 => do
    if ← l.test then l.pass fuel (l.run fuel left) else return .normal

end Loop

namespace Typed

/-- The group in which a switch starts: that of the case, or else that of the default. -/
def groupFor? (value : Int32) (groups : List (SwitchGroup CaseLabel Stmt)) : Option Nat :=
  groups.findIdx? (·.labels.contains (.case value)) <|> groups.findIdx? hasDefault

namespace Stmt

mutual

/-- Evaluates a statement. -/
def exec (fuel : Nat) : Stmt → Eval Exit
  | .block _ body => execAll fuel body
  | .declare _ _ none => return .normal
  | .declare _ var (some init) => do
    let v ← init.eval
    (Place.ofLocal var).set v
    return .normal
  | .expr _ e => do
    let _ ← e.eval
    return .normal
  | .ifElse _ c t none => do if ← c.test then t.exec fuel else return .normal
  | .ifElse _ c t (some e) => do if ← c.test then t.exec fuel else e.exec fuel
  | .whileDo _ target c body => Loop.run ⟨target, c.test, body.exec fuel, pure .normal⟩ fuel fuel
  | .doWhile _ target body c =>
    let l : Loop := ⟨target, c.test, body.exec fuel, pure .normal⟩
    l.pass fuel (l.run fuel fuel)
  | .forLoop _ target init c update body =>
    let test := match c with
      | some c => c.test
      | none => return true
    (execAll fuel init).andThen
      (Loop.run ⟨target, test, execOption fuel body, execAll fuel update⟩ fuel fuel)
  | .switch _ target d groups => do
    match groupFor? (← d.eval).asInt groups with
    | some k => return (← execGroups fuel k groups).out target
    | none => return .normal
  | .breakOut _ none => return .normal
  | .breakOut _ (some target) => return .breaks target
  | .continueLoop _ none => return .normal
  | .continueLoop _ (some target) => return .continues target
  | .ret _ none => return .returns none
  | .ret _ (some value) => do return .returns (some (← value.eval))
  | .empty _ => return .normal

/-- Evaluates statements in order. -/
def execAll (fuel : Nat) : List Stmt → Eval Exit
  | [] => return .normal
  | s :: rest => (s.exec fuel).andThen (execAll fuel rest)

/-- Evaluates a statement that may be absent. -/
def execOption (fuel : Nat) : Option Stmt → Eval Exit
  | none => return .normal
  | some s => s.exec fuel

/-- Evaluates the groups of a switch from one of them on, each falling through into the next. -/
def execGroups (fuel : Nat) : Nat → List (SwitchGroup CaseLabel Stmt) → Eval Exit
  | _, [] => return .normal
  | 0, ⟨_, stmts⟩ :: rest => (execAll fuel stmts).andThen (execGroups fuel 0 rest)
  | k + 1, _ :: rest => execGroups fuel k rest

end

end Stmt

namespace Program

/-- The store at the start: the receiver in slot 0, nothing in the other locals, and zeros in all
fields. -/
def start (p : Program) : Store where
  locals := (Array.replicate (max p.maxLocals.toNat 1) none).setIfInBounds 0 (some .ref)
  fields := (p.fields.map fun field => Value.zero field.ty.storage).toArray

/-- Evaluates a program: the value that it gives back, if any, and the store that it leaves. -/
def exec (fuel : Nat) (p : Program) : Except Halt (Option Value × Store) := do
  match ← Stmt.execAll fuel p.body p.start with
  | (.returns value, σ) => return (value, σ)
  | (_, σ) => return (none, σ)

end Program

end Typed

end Stacklet
