import Stacklet.Lowering.Place

/-!
# Lowering expressions

An expression has two forms: one that leaves its value on the stack, and one that jumps to a label
when its value is the wanted truth value and leaves the stack as it was. Conditions use the second
form directly; `&&` and `||` are nothing but jumps. `Forms` holds both, and either can be made from
the other.
-/

namespace Stacklet

open Lower

/-- The constant one of a kind. -/
def Kind.one : Kind → Instr
  | .int => .iconst 1
  | .long => .lconst 1
  | .double => .dconst 1.0

/-- The instruction for a constant. Booleans are the ints 0 and 1. -/
def Literal.instr : Literal → Instr
  | .int v => .iconst v
  | .long v => .lconst v
  | .double v => .dconst v
  | .bool v => .iconst (if v then 1 else 0)

/-- Jumps to a label when an expression has the given truth value. -/
abbrev Branch := Label → Bool → Lower Unit

/-- The two forms of an expression. -/
structure Forms where
  value : Lower Unit
  branch : Branch

namespace Forms

/-- The forms of an expression that is computed: the jump tests its value. -/
def ofValue (value : Lower Unit) : Forms where
  value := value
  branch target onTrue := do
    value
    emit (.jump (.ifZero (if onTrue then .ne else .eq)) target)

/-- The forms of an expression that is decided by jumps: the value is made from the outcome. -/
def ofBranch (branch : Branch) : Forms where
  value := do
    let onFalse ← label
    let done ← label
    branch onFalse false
    add (.iconst 1)
    goto done
    place onFalse
    add (.iconst 0)
    place done
  branch := branch

/-- A truth value: the jump is taken or not there at all. -/
def ofBool (b : Bool) : Forms where
  value := add (Literal.bool b).instr
  branch target onTrue := if b = onTrue then goto target else return ()

end Forms

namespace Branch

/-- The negation of a condition. -/
def not (b : Branch) : Branch := fun target onTrue => b target (!onTrue)

/-- The conjunction of two conditions. -/
def and (lhs rhs : Branch) : Branch := fun target onTrue =>
  if onTrue then do
    let skip ← label
    lhs skip false
    rhs target true
    place skip
  else do
    lhs target false
    rhs target false

/-- The disjunction of two conditions. -/
def or (lhs rhs : Branch) : Branch := fun target onTrue =>
  if onTrue then do
    lhs target true
    rhs target true
  else do
    let skip ← label
    lhs skip true
    rhs target false
    place skip

/-- A comparison of two values of a kind. Of the two ways to compare doubles it takes the one that
makes the comparison false when one of them is not a number. -/
def compare (cond : Cond) (kind : Kind) (lhs rhs : Lower Unit) : Branch := fun target onTrue => do
  lhs
  rhs
  let tested := if onTrue then cond else cond.negate
  match kind with
  | .int => emit (.jump (.ifCompare tested) target)
  | .long =>
    add .lcmp
    emit (.jump (.ifZero tested) target)
  | .double =>
    add (if cond = .lt ∨ cond = .le then .dcmpg else .dcmpl)
    emit (.jump (.ifZero tested) target)

end Branch

namespace Typed.Expr

/-- The kind of an expression that has to be numeric. -/
def numericKind (line : Line) (ty : Ty) : Lower Kind :=
  match ty.kind? with
  | some kind => return kind
  | none => fail (.notNumeric line ty)

/-- A step of a place. A local is stepped in place; a field is read, changed and stored, with one copy
of its value kept before or after the change. Nothing is kept when the value is not wanted. -/
def lowerStep (op : StepOp) (p : Place) (wanted : Bool) : Lower Unit :=
  match p.ty.kind? with
  | none => fail (.badStep op p.ty)
  | some kind =>
    match p with
    | .ofLocal var => do
      if wanted && !op.isPre then add (.load kind var.slot)
      emit (.inc var.slot op.delta)
      if wanted && op.isPre then add (.load kind var.slot)
    | .ofField _ => do
      p.address
      p.fetch
      if wanted && !op.isPre then p.keepCopy
      add kind.one
      add (.arith (if op.isIncrement then .add else .sub) kind)
      if wanted && op.isPre then p.keepCopy
      p.store

/-- An assignment to a place. A copy of the value is kept when it is wanted. -/
def lowerAssign (p : Place) (value : Lower Unit) (wanted : Bool) : Lower Unit := do
  p.address
  value
  if wanted then p.keepCopy
  p.store

/-- The forms of an expression. -/
def forms : Expr → Forms
  | .literal _ _ (.bool b) => .ofBool b
  | .literal _ _ v => .ofValue (add v.instr)
  | .load _ _ p => .ofValue p.read
  | .negate line ty e =>
    let operand := e.forms
    .ofValue do
      let kind ← numericKind line ty
      operand.value
      add (.neg kind)
  | .not _ _ e => .ofBranch e.forms.branch.not
  | .step _ _ op p => .ofValue (lowerStep op p true)
  | .binary line ty op l r =>
    let lhs := l.forms
    let rhs := r.forms
    match op with
    | .arith op => .ofValue do
      let kind ← numericKind line ty
      lhs.value
      rhs.value
      add (.arith op kind)
    | .compare cond => .ofBranch (.compare cond l.ty.storage lhs.value rhs.value)
    | .logic .and => .ofBranch (lhs.branch.and rhs.branch)
    | .logic .or => .ofBranch (lhs.branch.or rhs.branch)
  | .assign _ _ p e => .ofValue (lowerAssign p e.forms.value true)
  | .error line _ => .ofValue (fail (.failedCheck line))

/-- Leaves the value of an expression on the stack. -/
def lowerValue (e : Expr) : Lower Unit := e.forms.value

/-- Jumps to a label when an expression has the given truth value. -/
def lowerBranch (e : Expr) : Branch := e.forms.branch

/-- Evaluates an expression for its effect, and leaves the stack as it was. -/
def lowerEffect : Expr → Lower Unit
  | .step _ _ op p => lowerStep op p false
  | .assign _ _ p e => lowerAssign p e.lowerValue false
  | e => do
    e.lowerValue
    add .pop

end Typed.Expr

end Stacklet
