import Stacklet.Checking.Stmt

/-!
# Well-formed trees

The rules that a typed tree has to obey for its code to work, apart from how the check finds them out.
They are relative to a set of known places, the only ones that a tree may name: for some facts it is
enough that places have a proper type, for others they have to be places of the store.
-/

namespace Stacklet.Typed

namespace Expr

/-- Whether an expression has the types that its operators ask for. -/
def WellTyped (known : Place → Prop) : Expr → Prop
  | .literal _ ty v => ty = v.ty
  | .load _ ty p => known p ∧ ty = p.ty
  | .negate _ ty e => e.WellTyped known ∧ ty = e.ty ∧ ty.isNumeric
  | .not _ ty e => e.WellTyped known ∧ e.ty = .boolean ∧ ty = .boolean
  | .step _ ty _ p => known p ∧ ty = p.ty ∧ ty.isNumeric
  | .binary _ ty op l r =>
    l.WellTyped known ∧ r.WellTyped known ∧ op.resultType? l.ty r.ty = some ty
  | .assign _ ty p e => known p ∧ e.WellTyped known ∧ e.ty = p.ty ∧ ty = p.ty
  | .error .. => False

/-- Whether an expression may be tested. -/
def IsCondition (known : Place → Prop) (e : Expr) : Prop := e.WellTyped known ∧ e.ty = .boolean

end Expr

/-- Whether a number is that of no construct around a statement. -/
def IsFresh (env : Surroundings) (target : Target) : Prop := ∀ e ∈ env.jumps, e.target ≠ target

/-- The number of default labels of a switch. -/
def defaults (groups : List (SwitchGroup CaseLabel Stmt)) : Nat :=
  (groups.flatMap (·.labels)).count .otherwise

namespace Stmt

mutual

/-- Whether a statement may stand in some surroundings. -/
def WellFormed (known : Place → Prop) (env : Surroundings) : Stmt → Prop
  | .block _ body => AllWellFormed known env body
  | .declare _ var none => known (.ofLocal var)
  | .declare _ var (some init) => known (.ofLocal var) ∧ init.WellTyped known ∧ init.ty = var.ty
  | .expr _ e => e.WellTyped known
  | .ifElse _ c t none => c.IsCondition known ∧ t.WellFormed known env
  | .ifElse _ c t (some e) => c.IsCondition known ∧ t.WellFormed known env ∧ e.WellFormed known env
  | .whileDo _ target c body =>
    c.IsCondition known ∧ IsFresh env target ∧ body.WellFormed known (env.enter .loop target)
  | .doWhile _ target body c =>
    c.IsCondition known ∧ IsFresh env target ∧ body.WellFormed known (env.enter .loop target)
  | .forLoop _ target init c update body =>
    AllWellFormed known env init ∧ (∀ e ∈ c, e.IsCondition known) ∧ IsFresh env target ∧
      AllWellFormed known (env.enter .loop target) update ∧
      OptionWellFormed known (env.enter .loop target) body
  | .switch _ target d groups =>
    d.WellTyped known ∧ d.ty = .int ∧ IsFresh env target ∧ defaults groups ≤ 1 ∧
      GroupsWellFormed known (env.enter .switch target) groups
  | .breakOut _ target => ∃ e ∈ env.jumps, target = some e.target
  | .continueLoop _ target => ∃ e ∈ env.jumps, e.construct = .loop ∧ target = some e.target
  | .ret _ none => env.returns = none
  | .ret _ (some value) =>
    value.WellTyped known ∧ ∃ ty, env.returns = some ty ∧ (ty ≠ .any → value.ty = ty)
  | .empty _ => True

/-- Whether statements may stand in some surroundings. -/
def AllWellFormed (known : Place → Prop) (env : Surroundings) : List Stmt → Prop
  | [] => True
  | s :: rest => s.WellFormed known env ∧ AllWellFormed known env rest

/-- Whether a statement that may be absent may stand in some surroundings. -/
def OptionWellFormed (known : Place → Prop) (env : Surroundings) : Option Stmt → Prop
  | none => True
  | some s => s.WellFormed known env

/-- Whether the groups of a switch may stand in some surroundings. -/
def GroupsWellFormed (known : Place → Prop) (env : Surroundings) :
    List (SwitchGroup CaseLabel Stmt) → Prop
  | [] => True
  | ⟨_, stmts⟩ :: rest => AllWellFormed known env stmts ∧ GroupsWellFormed known env rest

end

end Stmt

/-- An operator with two operands of one type has a result of that type or a truth value. -/
theorem resultType_cases {op : BinaryOp} {l r ty : Ty} (h : op.resultType? l r = some ty) :
    l = r ∧ match op with
      | .arith _ => ty = l ∧ l.isNumeric
      | .compare _ => ty = .boolean
      | .logic _ => ty = .boolean ∧ l = .boolean := by
  cases op with
  | arith op =>
    obtain ⟨same, result⟩ := Option.ite_none_right_eq_some.1 h
    rw [Bool.and_eq_true, beq_iff_eq] at same
    cases result
    exact ⟨same.1, rfl, same.2⟩
  | compare cond =>
    obtain ⟨same, result⟩ := Option.ite_none_right_eq_some.1 h
    cases result
    refine ⟨?_, rfl⟩
    split at same
    · rw [Bool.and_eq_true, beq_iff_eq] at same
      exact same.1
    · exact beq_iff_eq.1 same
  | logic op =>
    obtain ⟨both, result⟩ := Option.ite_none_right_eq_some.1 h
    rw [Bool.and_eq_true, beq_iff_eq, beq_iff_eq] at both
    cases result
    exact ⟨both.1.trans both.2.symm, rfl, both.1⟩

theorem resultType_ne_any {op : BinaryOp} {l r ty : Ty} (h : op.resultType? l r = some ty) (proper : l ≠ .any) :
    ty ≠ .any := by
  have result := (resultType_cases h).2
  cases op with
  | arith op => rw [result.1]; exact proper
  | compare cond => rw [result]; decide
  | logic op => rw [result.1]; decide

/-- A well-typed expression over places of proper types has a proper type itself. -/
theorem Expr.WellTyped.ne_any {known : Place → Prop} (proper : ∀ p, known p → p.ty ≠ .any) {e : Expr}
    (h : e.WellTyped known) : e.ty ≠ .any := by
  induction e with
  | literal line ty v =>
    change ty = v.ty at h
    rw [Expr.ty, h]
    cases v <;> nofun
  | load line ty p =>
    obtain ⟨hp, rfl⟩ := h
    exact proper p hp
  | negate line ty e =>
    obtain ⟨-, -, numeric⟩ := h
    intro any
    rw [show ty = .any from any] at numeric
    cases numeric
  | not line ty e =>
    obtain ⟨-, -, rfl⟩ := h
    nofun
  | step line ty op p =>
    obtain ⟨hp, rfl, -⟩ := h
    exact proper p hp
  | binary line ty op l r ihl =>
    obtain ⟨hl, -, result⟩ := h
    exact resultType_ne_any result (ihl hl)
  | assign line ty p e =>
    obtain ⟨hp, -, -, rfl⟩ := h
    exact proper p hp
  | error => exact h.elim

end Stacklet.Typed
