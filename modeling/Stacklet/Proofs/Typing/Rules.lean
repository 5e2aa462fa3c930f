import Stacklet.Checking.Jumps
import Stacklet.Proofs.Sequence

/-!
# The rules of the language

Which programs are valid, said of the text alone: without slots, diagnostics or a wildcard type. An
expression has a type (`HasTy`) and a statement is valid (`Valid`) in a context, the locals and fields that
are visible where it stands; the locals that a statement adds to its own scope (`declares`) are visible to
what follows. A scope holds no name twice.
-/

namespace Stacklet

/-- What is visible at some point: the locals, the latest first, and the fields. -/
structure Context where
  locals : List (String × Ty)
  fields : List FieldDecl

/-- A context with further locals, in the order in which they are declared. -/
def Context.extend (ctx : Context) (declared : List (String × Ty)) : Context :=
  { ctx with locals := declared.reverse ++ ctx.locals }

/-- The types of numbers. -/
inductive Ty.Numeric : Ty → Prop where
  | int : Numeric .int
  | long : Numeric .long
  | double : Numeric .double

namespace Source

namespace Expr

/-- Whether an expression names a place. -/
def isPlace : Expr → Bool
  | .var .. | .field .. => true
  | _ => false

/-- An expression has a type. Nothing is converted. -/
inductive HasTy (ctx : Context) : Expr → Ty → Prop where
  | literal {line value} : HasTy ctx (.literal line value) value.ty
  | visible {line name ty} : ctx.locals.lookup name = some ty → HasTy ctx (.var line name) ty
  /-- A name that no visible local has is that of a field. -/
  | implied {line name ty} : ctx.locals.lookup name = none → ⟨name, ty⟩ ∈ ctx.fields →
    HasTy ctx (.var line name) ty
  | field {line name ty} : ⟨name, ty⟩ ∈ ctx.fields → HasTy ctx (.field line name) ty
  | negate {line e ty} : HasTy ctx e ty → ty.Numeric → HasTy ctx (.unary line .negate e) ty
  | not {line e} : HasTy ctx e .boolean → HasTy ctx (.unary line .not e) .boolean
  | step {line op e ty} : e.isPlace → HasTy ctx e ty → ty.Numeric → HasTy ctx (.step line op e) ty
  | arith {line op l r ty} : HasTy ctx l ty → HasTy ctx r ty → ty.Numeric →
    HasTy ctx (.binary line (.arith op) l r) ty
  /-- Numbers of one type are ordered. -/
  | ordering {line cond l r ty} : cond ∈ [.lt, .le, .gt, .ge] → HasTy ctx l ty → HasTy ctx r ty → ty.Numeric →
    HasTy ctx (.binary line (.compare cond) l r) .boolean
  /-- Values of any type are compared with those of the same type. -/
  | equality {line cond l r ty} : cond ∈ [.eq, .ne] → HasTy ctx l ty → HasTy ctx r ty →
    HasTy ctx (.binary line (.compare cond) l r) .boolean
  | logic {line op l r} : HasTy ctx l .boolean → HasTy ctx r .boolean →
    HasTy ctx (.binary line (.logic op) l r) .boolean
  | assign {line target value ty} : target.isPlace → HasTy ctx target ty → HasTy ctx value ty →
    HasTy ctx (.assign line target value) ty

/-- An expression that may stand as a statement. -/
inductive StandsAlone : Expr → Prop where
  | assign {line target value} : StandsAlone (.assign line target value)
  | step {line op operand} : StandsAlone (.step line op operand)

/-- An int constant with its value: a literal, or a negated one. The negation wraps. -/
inductive IsConstant : Expr → Int32 → Prop where
  | literal {line v} : IsConstant (.literal line (.int v)) v
  | negated {line line' v} : IsConstant (.unary line .negate (.literal line' (.int v))) (-v)

end Expr

namespace CaseLabel

/-- Two labels that one switch may not have both. -/
def Clashes : CaseLabel → CaseLabel → Prop
  | .case e, .case e' => ∃ v, e.IsConstant v ∧ e'.IsConstant v
  | .otherwise, .otherwise => True
  | _, _ => False

/-- Whether labels are constants or the default, and no two of them clash. -/
def AllDistinct (labels : List CaseLabel) : Prop :=
  (∀ e, .case e ∈ labels → ∃ v, e.IsConstant v) ∧ labels.Pairwise fun a b => ¬a.Clashes b

end CaseLabel

namespace Stmt

mutual

/-- The locals that a statement adds to the scope in which it stands. The groups of a switch have no scope
of their own. -/
def declares : Stmt → List (String × Ty)
  | .declare _ name ty _ => [(name, ty)]
  | .switch _ _ groups => groupDeclares groups
  | .block .. | .expr .. | .ifElse .. | .whileDo .. | .doWhile .. | .forLoop .. | .breakOut _
  | .continueLoop _ | .ret .. | .empty _ => []

/-- The locals that statements add to their scope. -/
def allDeclares : List Stmt → List (String × Ty)
  | [] => []
  | s :: rest => s.declares ++ allDeclares rest

/-- The locals that the groups of a switch add to its scope. -/
def groupDeclares : List (SwitchGroup CaseLabel Stmt) → List (String × Ty)
  | [] => []
  | ⟨_, stmts⟩ :: rest => allDeclares stmts ++ groupDeclares rest

end

/-- Whether locals of one scope have names of their own. -/
def NamedApart (declared : List (String × Ty)) : Prop := (declared.map (·.1)).Nodup

mutual

/-- A statement is valid inside constructs, the innermost first, and a context. Blocks, branches, bodies of
loops and whole `for` statements are scopes of their own. -/
def Valid (returns : Option Ty) (around : List Construct) (ctx : Context) : Stmt → Prop
  | .block _ body => AllValid returns around ctx body ∧ NamedApart (allDeclares body)
  | .declare _ _ ty init => ∀ e ∈ init, e.HasTy ctx ty
  | .expr _ e => e.StandsAlone ∧ ∃ ty, e.HasTy ctx ty
  | .ifElse _ c t none => c.HasTy ctx .boolean ∧ t.Valid returns around ctx ∧ NamedApart t.declares
  | .ifElse _ c t (some e) =>
    c.HasTy ctx .boolean ∧ (t.Valid returns around ctx ∧ NamedApart t.declares) ∧
      e.Valid returns around ctx ∧ NamedApart e.declares
  | .whileDo _ c body =>
    c.HasTy ctx .boolean ∧ body.Valid returns (.loop :: around) ctx ∧ NamedApart body.declares
  | .doWhile _ body c =>
    (body.Valid returns (.loop :: around) ctx ∧ NamedApart body.declares) ∧ c.HasTy ctx .boolean
  | .forLoop _ init c update none =>
    AllValid returns around ctx init ∧ (∀ e ∈ c, e.HasTy (ctx.extend (allDeclares init)) .boolean) ∧
      AllValid returns (.loop :: around) (ctx.extend (allDeclares init)) update ∧
      NamedApart (allDeclares init ++ allDeclares update)
  | .forLoop _ init c update (some body) =>
    AllValid returns around ctx init ∧ (∀ e ∈ c, e.HasTy (ctx.extend (allDeclares init)) .boolean) ∧
      AllValid returns (.loop :: around) (ctx.extend (allDeclares init)) update ∧
      NamedApart (allDeclares init ++ allDeclares update) ∧
      body.Valid returns (.loop :: around) (ctx.extend (allDeclares init ++ allDeclares update)) ∧
      NamedApart body.declares
  | .switch _ d groups =>
    d.HasTy ctx .int ∧ GroupsValid returns (.switch :: around) ctx groups ∧
      CaseLabel.AllDistinct (groups.flatMap (·.labels))
  | .breakOut _ => around ≠ []
  | .continueLoop _ => .loop ∈ around
  | .ret _ none => returns = none
  | .ret _ (some e) => ∃ ty, returns = some ty ∧ e.HasTy ctx ty
  | .empty _ => True

/-- Statements are valid in order, each with the locals that those before it add. -/
def AllValid (returns : Option Ty) (around : List Construct) (ctx : Context) : List Stmt → Prop
  | [] => True
  | s :: rest => s.Valid returns around ctx ∧ AllValid returns around (ctx.extend s.declares) rest

/-- The groups of a switch are valid in order, as if their statements stood in one list. -/
def GroupsValid (returns : Option Ty) (around : List Construct) (ctx : Context) :
    List (SwitchGroup CaseLabel Stmt) → Prop
  | [] => True
  | ⟨_, stmts⟩ :: rest =>
    AllValid returns around ctx stmts ∧ GroupsValid returns around (ctx.extend (allDeclares stmts)) rest

end

end Stmt

/-- A program is valid: its fields have names of their own, and its body is valid with nothing around it. -/
def Program.Valid (p : Program) : Prop :=
  (p.fields.map (·.name)).Nodup ∧
    Stmt.AllValid p.returns [] ⟨[], p.fields⟩ p.body ∧ Stmt.NamedApart (Stmt.allDeclares p.body)

end Source

/-! ## Types of expressions -/

/-- Whether no place that is visible has the wildcard type. -/
structure Context.Proper (ctx : Context) : Prop where
  locals : ∀ declared ∈ ctx.locals, declared.2 ≠ .any
  fields : ∀ field ∈ ctx.fields, field.ty ≠ .any

theorem Ty.Numeric.ne_any {ty : Ty} (h : ty.Numeric) : ty ≠ .any := by
  rintro rfl
  cases h

/-- An expression never has the wildcard type. -/
theorem Source.Expr.HasTy.ne_any {ctx : Context} {e : Source.Expr} {ty : Ty} (h : e.HasTy ctx ty)
    (proper : ctx.Proper) : ty ≠ .any := by
  induction h with
  | @literal _ value => cases value <;> nofun
  | visible found => exact proper.locals _ (mem_of_lookup found)
  | implied _ mem | field mem => exact proper.fields _ mem
  | negate _ numeric | step _ _ numeric | arith _ _ numeric => exact numeric.ne_any
  | not | ordering | equality | logic => nofun
  | assign _ _ _ _ ih => exact ih

end Stacklet
