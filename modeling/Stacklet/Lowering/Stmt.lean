import Stacklet.Lowering.Expr

/-!
# Lowering statements

Every statement leaves the stack as it found it. The test of a `while` stands in front of its body,
those of `do` and `for` behind it; `continue` leads to the test, in a `for` to the update before it.
-/

namespace Stacklet.Typed

open Lower

/-- The labels of a switch: its arms in order, the labels to be bound in front of each group, and the
label of the default, if there is one. -/
structure SwitchPlan where
  arms : List (Int32 × Label)
  entries : List (List Label)
  default? : Option Label

/-- Makes a label for every case of a group; all defaults of a switch share one label. -/
def planGroup (default? : Option Label) :
    List CaseLabel → Lower (List (Int32 × Label) × List Label × Option Label)
  | [] => return ([], [], default?)
  | .case value :: rest => do
    let l ← label
    let (arms, entry, default?) ← planGroup default? rest
    return ((value, l) :: arms, l :: entry, default?)
  | .otherwise :: rest => do
    let l ← match default? with
      | some l => pure l
      | none => label
    let (arms, entry, default?) ← planGroup (some l) rest
    return (arms, l :: entry, default?)

/-- Makes the labels of all groups. -/
def planGroups (default? : Option Label) :
    List (SwitchGroup CaseLabel Stmt) → Lower SwitchPlan
  | [] => return ⟨[], [], default?⟩
  | group :: rest => do
    let (arms, entry, default?) ← planGroup default? group.labels
    let plan ← planGroups default? rest
    return { plan with arms := arms ++ plan.arms, entries := entry :: plan.entries }

namespace Stmt

mutual

/-- Lowers a statement. -/
def lower : Stmt → Lower Unit
  | .block _ body => lowerAll body
  | .declare _ _ none => return ()
  | .declare _ var (some init) => do
    init.lowerValue
    add (.store var.ty.storage var.slot)
  | .expr _ e => e.lowerEffect
  | .ifElse _ c t none => do
    let otherwise ← label
    c.lowerBranch otherwise false
    t.lower
    place otherwise
  | .ifElse _ c t (some e) => do
    let otherwise ← label
    c.lowerBranch otherwise false
    t.lower
    let done ← label
    goto done
    place otherwise
    e.lower
    place done
  | .whileDo _ target c body => do
    let test ← label
    let done ← label
    register target ⟨done, some test⟩
    place test
    c.lowerBranch done false
    body.lower
    goto test
    place done
  | .doWhile _ target body c => do
    let top ← label
    let test ← label
    let done ← label
    register target ⟨done, some test⟩
    place top
    body.lower
    place test
    c.lowerBranch top true
    place done
  | .forLoop _ target init c update body => do
    lowerAll init
    let top ← label
    let next ← label
    let test ← label
    let done ← label
    register target ⟨done, some next⟩
    goto test
    place top
    lowerOption body
    place next
    lowerAll update
    place test
    match c with
    | some c => c.lowerBranch top true
    | none => goto top
    place done
  | .switch _ target d groups => do
    d.lowerValue
    let done ← label
    register target ⟨done, none⟩
    let plan ← planGroups none groups
    emit (.switch (plan.arms.map (·.1)) (plan.arms.map (·.2)) (plan.default?.getD done))
    lowerGroups plan.entries groups
    place done
  | .breakOut _ none => return ()
  | .breakOut _ (some target) => do goto (← exits target).breakLabel
  | .continueLoop _ none => return ()
  | .continueLoop _ (some target) => do
    match (← exits target).continueLabel with
    | some l => goto l
    | none => return ()
  | .ret _ none => add .ret
  | .ret _ (some value) => do
    value.lowerValue
    add (.retValue value.ty.storage)
  | .empty _ => return ()

/-- Lowers statements in order. -/
def lowerAll : List Stmt → Lower Unit
  | [] => return ()
  | s :: rest => do
    s.lower
    lowerAll rest

/-- Lowers a statement that may be absent. -/
def lowerOption : Option Stmt → Lower Unit
  | none => return ()
  | some s => s.lower

/-- Lowers the groups of a switch in order, each behind its labels. -/
def lowerGroups : List (List Label) → List (SwitchGroup CaseLabel Stmt) → Lower Unit
  | _, [] => return ()
  | entries, ⟨_, stmts⟩ :: rest => do
    placeAll (entries.headD [])
    lowerAll stmts
    lowerGroups entries.tail rest

end

end Stmt

/-- Lowers the body of a program. Control that reaches its end returns. -/
def Program.lower (p : Program) : Lower Unit := do
  Stmt.lowerAll p.body
  add .ret

end Stacklet.Typed
