import Stacklet.Proofs.Sequence
import Stacklet.Proofs.Typing.Layout

/-!
# Types are kept by evaluation

Evaluating a well-typed expression over a store that fits a layout gives a value of its type and a store
that fits (`eval_keeps`); a well-formed statement leaves a store that fits and returns what the program
declares (`exec_keeps`).
-/

namespace Stacklet

namespace Layout

/-- A computation that keeps the types of the store and whose results have a property. -/
def Keeps {α : Type} (layout : Layout) (x : Eval α) (P : α → Prop) : Prop :=
  ∀ (σ σ' : Store) (a : α), layout.Fits σ → x σ = .ok (a, σ') → P a ∧ layout.Fits σ'

variable {α β : Type} {layout : Layout} {P : α → Prop} {Q : β → Prop}

theorem keeps_pure {a : α} (h : P a) : layout.Keeps (pure a) P := by
  intro σ σ' b fits run
  cases run
  exact ⟨h, fits⟩

theorem keeps_halt (h : Halt) : layout.Keeps (Eval.halt h : Eval α) P := by
  intro σ σ' b _ run
  cases run

theorem Keeps.bind {x : Eval α} {g : α → Eval β} (hx : layout.Keeps x P)
    (hg : ∀ a, P a → layout.Keeps (g a) Q) : layout.Keeps (x >>= g) Q := by
  intro σ σ' b fits run
  obtain ⟨a, σ₁, first, second⟩ := bind_eq_ok run
  obtain ⟨ha, fits₁⟩ := hx σ σ₁ a fits first
  exact hg a ha σ₁ σ' b fits₁ second

theorem keeps_get {p : Place} (known : layout.Knows p) : layout.Keeps p.get (·.HasTy p.ty) := by
  intro σ σ' v fits run
  obtain ⟨rfl, typed⟩ := fits.get known run
  exact ⟨typed, fits⟩

theorem keeps_set {p : Place} {v : Value} (known : layout.Knows p) (hv : v.HasTy p.ty) :
    layout.Keeps (p.set v) fun _ => True := by
  intro σ σ' u fits run
  cases run
  exact ⟨trivial, fits.write known hv⟩

end Layout

open Layout

/-! ## Expressions -/

theorem Literal.hasTy_value (v : Literal) : v.value.HasTy v.ty := by
  cases v with
  | bool b => exact Value.hasTy_ofBool b
  | _ => exact ⟨rfl, nofun⟩

theorem Value.kind?_negate (kind : Kind) (v : Value) : (v.negate kind).kind? = some kind := by
  cases kind <;> rfl

namespace StepOp

theorem kind?_changed (op : StepOp) (kind : Kind) (old : Value) : (op.changed kind old).kind? = some kind := by
  cases op <;> cases kind <;> rfl

/-- The value of a step is the number before it or the one after it. -/
theorem result_cases (op : StepOp) (kind : Kind) (old : Value) :
    op.result kind old = op.changed kind old ∨ op.result kind old = old := by
  cases op with
  | preInc | preDec => exact .inl rfl
  | postInc | postDec => exact .inr rfl

end StepOp

theorem ArithOp.kind?_apply {op : ArithOp} {kind : Kind} {a b v : Value}
    (h : op.apply kind a b = .ok v) : v.kind? = some kind := by
  cases kind with
  | int | long =>
    simp only [apply] at h
    split at h <;> cases h
    rfl
  | double => cases h; rfl

namespace Typed.Expr

variable {layout : Layout}

/-- A well-typed expression has a value of its type. -/
theorem eval_keeps {e : Expr} (wt : e.WellTyped layout.Knows) : layout.Keeps e.eval (·.HasTy e.ty) := by
  induction e with
  | literal line ty v =>
    obtain rfl : ty = v.ty := wt
    exact keeps_pure v.hasTy_value
  | load line ty p =>
    obtain ⟨known, rfl⟩ := wt
    exact keeps_get known
  | negate line ty e ih =>
    obtain ⟨he, -, numeric⟩ := wt
    exact (ih he).bind fun v _ => keeps_pure (.ofNumeric numeric (Value.kind?_negate _ _))
  | not line ty e ih =>
    obtain ⟨he, -, rfl⟩ := wt
    exact (ih he).bind fun v _ => keeps_pure (Value.hasTy_ofBool _)
  | step line ty op p =>
    obtain ⟨known, rfl, numeric⟩ := wt
    refine (keeps_get known).bind fun old typed => ?_
    have changed : (op.changed p.ty.storage old).HasTy p.ty := .ofNumeric numeric (op.kind?_changed _ old)
    refine (keeps_set known changed).bind fun _ _ => keeps_pure ?_
    rcases op.result_cases p.ty.storage old with new | same
    · rw [new]
      exact changed
    · rw [same]
      exact typed
  | binary line ty op l r ihl ihr =>
    obtain ⟨hl, hr, result⟩ := wt
    have types := (resultType_cases result).2
    cases op with
    | arith op =>
      obtain ⟨rfl, numeric⟩ := types
      refine (ihl hl).bind fun a _ => (ihr hr).bind fun b _ => ?_
      intro σ σ' v fits run
      change (op.apply l.ty.storage a b >>= fun v => .ok (v, σ)) = .ok (v, σ') at run
      cases applied : op.apply l.ty.storage a b with
      | error e => rw [applied] at run; cases run
      | ok w =>
        rw [applied] at run
        cases run
        exact ⟨.ofNumeric numeric (ArithOp.kind?_apply applied), fits⟩
    | compare cond =>
      obtain rfl : ty = .boolean := types
      exact (ihl hl).bind fun a _ => (ihr hr).bind fun b _ => keeps_pure (Value.hasTy_ofBool _)
    | logic op =>
      obtain ⟨rfl, -⟩ := types
      refine (ihl hl).bind fun a _ => ?_
      split
      · exact keeps_pure (Value.hasTy_ofBool _)
      · exact (ihr hr).bind fun b _ => keeps_pure (Value.hasTy_ofBool _)
  | assign line ty p e ih =>
    obtain ⟨known, he, same, rfl⟩ := wt
    refine (ih he).bind fun v typed => ?_
    rw [same] at typed
    exact (keeps_set known typed).bind fun _ _ => keeps_pure typed
  | error => exact wt.elim

theorem test_keeps {e : Expr} (wt : e.WellTyped layout.Knows) : layout.Keeps e.test fun _ => True :=
  (eval_keeps wt).bind fun _ _ => keeps_pure trivial

end Typed.Expr

/-! ## Statements -/

/-- Whether a program may give back a value, or none, when it declares a result. -/
def IsResult (returns : Option Ty) (value : Option Value) : Prop :=
  match returns with
  | none => value = none
  | some ty => ∀ v ∈ value, ty ≠ .any → v.kind? = some ty.storage

/-- Whether a statement ends as the declared result allows. -/
def Exit.Respects (returns : Option Ty) : Exit → Prop
  | .returns value => IsResult returns value
  | _ => True

theorem Exit.Respects.out {returns : Option Ty} {exit : Exit} (h : exit.Respects returns)
    (target : Target) : (exit.out target).Respects returns := by
  cases exit with
  | breaks t =>
    rw [Exit.out]
    split <;> trivial
  | _ => exact h

section Parts

variable {layout : Layout} {returns : Option Ty}

theorem Layout.Keeps.andThen {x y : Eval Exit} (hx : layout.Keeps x (·.Respects returns))
    (hy : layout.Keeps y (·.Respects returns)) : layout.Keeps (x.andThen y) (·.Respects returns) := by
  refine hx.bind fun exit respects => ?_
  cases exit with
  | normal => exact hy
  | _ => exact keeps_pure respects

variable {l : Loop} (test : layout.Keeps l.test fun _ => True)
  (body : layout.Keeps l.body (·.Respects returns))
  (update : layout.Keeps l.update (·.Respects returns))

include update in
theorem Loop.runUpdate_keeps {next : Eval Exit} (hn : layout.Keeps next (·.Respects returns)) (left : Nat) :
    layout.Keeps (l.runUpdate next left) (·.Respects returns) := by
  induction left with
  | zero => exact keeps_halt _
  | succ left ih =>
    refine update.bind fun exit respects => ?_
    cases exit with
    | normal => exact hn
    | continues t =>
      simp only
      split
      · exact ih
      · exact keeps_pure trivial
    | breaks t => exact keeps_pure (respects.out l.target)
    | returns value => exact keeps_pure respects

include body update in
theorem Loop.pass_keeps (fuel : Nat) {next : Eval Exit} (hn : layout.Keeps next (·.Respects returns)) :
    layout.Keeps (l.pass fuel next) (·.Respects returns) := by
  refine body.bind fun exit respects => ?_
  split
  · exact Loop.runUpdate_keeps update hn fuel
  · exact keeps_pure (respects.out l.target)

include test body update in
theorem Loop.run_keeps (fuel left : Nat) : layout.Keeps (l.run fuel left) (·.Respects returns) := by
  induction left with
  | zero => exact keeps_halt _
  | succ left ih =>
    refine test.bind fun b _ => ?_
    split
    · exact Loop.pass_keeps body update fuel ih
    · exact keeps_pure trivial

end Parts

namespace Typed.Stmt

variable {layout : Layout}

mutual

/-- A well-formed statement keeps the types of the store and returns what is declared. -/
theorem exec_keeps (fuel : Nat) (env : Surroundings) (s : Stmt) (wf : s.WellFormed layout.Knows env) :
    layout.Keeps (s.exec fuel) (·.Respects env.returns) := by
  match s with
  | .block line body => exact execAll_keeps fuel env body wf
  | .declare line var none => exact keeps_pure trivial
  | .declare line var (some init) =>
    obtain ⟨known, typed, same⟩ := wf
    refine (Expr.eval_keeps typed).bind fun v hv => ?_
    rw [same] at hv
    exact (keeps_set known hv).bind fun _ _ => keeps_pure trivial
  | .expr line e => exact (Expr.eval_keeps wf).bind fun _ _ => keeps_pure trivial
  | .ifElse line c t none =>
    obtain ⟨condition, ht⟩ := wf
    refine (Expr.test_keeps condition.1).bind fun b _ => ?_
    split
    · exact exec_keeps fuel env t ht
    · exact keeps_pure trivial
  | .ifElse line c t (some e) =>
    obtain ⟨condition, ht, he⟩ := wf
    refine (Expr.test_keeps condition.1).bind fun b _ => ?_
    split
    · exact exec_keeps fuel env t ht
    · exact exec_keeps fuel env e he
  | .whileDo line target c body =>
    obtain ⟨condition, -, hb⟩ := wf
    exact Loop.run_keeps (Expr.test_keeps condition.1) (exec_keeps fuel _ body hb) (keeps_pure trivial) fuel fuel
  | .doWhile line target body c =>
    obtain ⟨condition, -, hb⟩ := wf
    have bodyKeeps := exec_keeps fuel _ body hb
    exact Loop.pass_keeps bodyKeeps (keeps_pure trivial) fuel
      (Loop.run_keeps (Expr.test_keeps condition.1) bodyKeeps (keeps_pure trivial) fuel fuel)
  | .forLoop line target init c update body =>
    obtain ⟨hi, hc, -, hu, hb⟩ := wf
    refine (execAll_keeps fuel env init hi).andThen (Loop.run_keeps ?_ (execOption_keeps fuel _ body hb)
      (execAll_keeps fuel _ update hu) fuel fuel)
    cases c with
    | none => exact keeps_pure trivial
    | some c => exact Expr.test_keeps (hc c rfl).1
  | .switch line target d groups =>
    obtain ⟨typed, -, -, -, hg⟩ := wf
    refine (Expr.eval_keeps typed).bind fun v _ => ?_
    split
    · next k _ =>
      exact (execGroups_keeps fuel _ k groups hg).bind fun exit respects => keeps_pure (respects.out target)
    · exact keeps_pure trivial
  | .breakOut line none | .breakOut line (some target) | .continueLoop line none
  | .continueLoop line (some target) | .empty line => exact keeps_pure trivial
  | .ret line none =>
    have none : env.returns = none := wf
    rw [none]
    exact keeps_pure rfl
  | .ret line (some value) =>
    obtain ⟨typed, ty, declared, same⟩ := wf
    refine (Expr.eval_keeps typed).bind fun v hv => keeps_pure ?_
    rw [declared]
    rintro w ⟨⟩ proper
    rw [← same proper]
    exact hv.kind

/-- Well-formed statements keep the types of the store. -/
theorem execAll_keeps (fuel : Nat) (env : Surroundings) (ss : List Stmt)
    (wf : AllWellFormed layout.Knows env ss) : layout.Keeps (execAll fuel ss) (·.Respects env.returns) := by
  match ss with
  | [] => exact keeps_pure trivial
  | s :: rest => exact (exec_keeps fuel env s wf.1).andThen (execAll_keeps fuel env rest wf.2)

theorem execOption_keeps (fuel : Nat) (env : Surroundings) (s : Option Stmt)
    (wf : OptionWellFormed layout.Knows env s) :
    layout.Keeps (execOption fuel s) (·.Respects env.returns) := by
  match s with
  | none => exact keeps_pure trivial
  | some s => exact exec_keeps fuel env s wf

theorem execGroups_keeps (fuel : Nat) (env : Surroundings) (k : Nat)
    (groups : List (SwitchGroup CaseLabel Stmt)) (wf : GroupsWellFormed layout.Knows env groups) :
    layout.Keeps (execGroups fuel k groups) (·.Respects env.returns) := by
  match k, groups with
  | _, [] => rw [execGroups]; exact keeps_pure trivial
  | 0, ⟨labels, stmts⟩ :: rest =>
    exact (execAll_keeps fuel env stmts wf.1).andThen (execGroups_keeps fuel env 0 rest wf.2)
  | k + 1, ⟨labels, stmts⟩ :: rest => exact execGroups_keeps fuel env k rest wf.2

end

end Typed.Stmt

end Stacklet
