import Stacklet.Lowering.Stmt
import Stacklet.Proofs.Typing.Bare

/-!
# Lowering bare trees

Lines stand in the errors of lowering and nowhere else: a tree and its bare tree are lowered by the same
calls, and both can be lowered or neither can (`lower_bare`).
-/

namespace Stacklet

open Lower

/-- Steps that make the same calls and give the same result. Both may fail, if for different reasons. -/
def Lower.Agrees {α : Type} (x y : Lower α) : Prop :=
  ∀ s, (x s).calls = (y s).calls ∧ (x s).state = (y s).state ∧ (x s).result.toOption = (y s).result.toOption

namespace Lower.Agrees

variable {α β : Type} {x y : Lower α}

theorem refl (x : Lower α) : Agrees x x := fun _ => ⟨rfl, rfl, rfl⟩

theorem fail (e e' : LowerError) : Agrees (Lower.fail e : Lower α) (Lower.fail e') := fun _ => ⟨rfl, rfl, rfl⟩

theorem bind {f g : α → Lower β} (h : Agrees x y) (h' : ∀ a, Agrees (f a) (g a)) :
    Agrees (x >>= f) (y >>= g) := by
  intro s
  obtain ⟨calls, state, result⟩ := h s
  simp only [Bind.bind]
  cases hx : (x s).result with
  | error e =>
    cases hy : (y s).result with
    | error e' => exact ⟨calls, state, rfl⟩
    | ok a' => rw [hx, hy] at result; cases result
  | ok a =>
    cases hy : (y s).result with
    | error e' => rw [hx, hy] at result; cases result
    | ok a' =>
      rw [hx, hy] at result
      cases result
      obtain ⟨calls', state', result'⟩ := h' a (x s).state
      rw [← state]
      exact ⟨congrArg₂ (· ++ ·) calls calls', state', result'⟩

theorem symm (h : Agrees x y) : Agrees y x := fun s => ⟨(h s).1.symm, (h s).2.1.symm, (h s).2.2.symm⟩

theorem trans {z : Lower α} (h : Agrees x y) (h' : Agrees y z) : Agrees x z :=
  fun s => ⟨(h s).1.trans (h' s).1, (h s).2.1.trans (h' s).2.1, (h s).2.2.trans (h' s).2.2⟩

/-- What follows a step that both have. -/
theorem after {f g : α → Lower β} (h : ∀ a, Agrees (f a) (g a)) : Agrees (x >>= f) (x >>= g) := (refl x).bind h

end Lower.Agrees

/-- Forms that agree. -/
structure Forms.Agree (a b : Forms) : Prop where
  value : Agrees a.value b.value
  branch : ∀ target onTrue, Agrees (a.branch target onTrue) (b.branch target onTrue)

namespace Forms.Agree

theorem ofValue {value value' : Lower Unit} (h : Agrees value value') :
    Agree (.ofValue value) (.ofValue value') where
  value := h
  branch _ _ := .bind h fun _ => .refl _

theorem ofBranch {branch branch' : Branch}
    (h : ∀ target onTrue, Agrees (branch target onTrue) (branch' target onTrue)) :
    Agree (.ofBranch branch) (.ofBranch branch') where
  value := .after fun _ => .after fun _ => .bind (h _ _) fun _ => .refl _
  branch := h

end Forms.Agree

namespace Typed.Expr

open Lower.Agrees

theorem numericKind_bare (line : Line) (ty : Ty) : Agrees (numericKind 0 ty) (numericKind line ty) := by
  unfold numericKind
  split
  · exact .refl _
  · exact .fail _ _

theorem lowerAssign_bare (p : Place) {value value' : Lower Unit} (h : Agrees value value') (wanted : Bool) :
    Agrees (lowerAssign p value wanted) (lowerAssign p value' wanted) :=
  .after fun _ => .bind h fun _ => .refl _

/-- The forms of an expression agree with those of the bare one. -/
theorem forms_bare (e : Expr) : e.bare.forms.Agree e.forms := by
  induction e with
  | literal line ty value => cases value <;> exact ⟨.refl _, fun _ _ => .refl _⟩
  | load line ty place => exact .ofValue (.refl _)
  | negate line ty operand ih =>
    exact .ofValue (.bind (numericKind_bare line ty) fun _ => .bind ih.value fun _ => .refl _)
  | not line ty operand ih => exact .ofBranch fun _ _ => ih.branch _ _
  | step line ty op place => exact .ofValue (.refl _)
  | binary line ty op lhs rhs ihl ihr =>
    cases op with
    | arith op =>
      exact .ofValue (.bind (numericKind_bare line ty) fun _ => .bind ihl.value fun _ => .bind ihr.value fun _ =>
        .refl _)
    | compare cond =>
      refine .ofBranch fun target onTrue => ?_
      rw [ty_bare]
      exact .bind ihl.value fun _ => .bind ihr.value fun _ => .refl _
    | logic op =>
      cases op with
      | and =>
        refine .ofBranch fun target onTrue => ?_
        cases onTrue with
        | true => exact .after fun _ => .bind (ihl.branch _ _) fun _ => .bind (ihr.branch _ _) fun _ => .refl _
        | false => exact .bind (ihl.branch _ _) fun _ => ihr.branch _ _
      | or =>
        refine .ofBranch fun target onTrue => ?_
        cases onTrue with
        | true => exact .bind (ihl.branch _ _) fun _ => ihr.branch _ _
        | false => exact .after fun _ => .bind (ihl.branch _ _) fun _ => .bind (ihr.branch _ _) fun _ => .refl _
  | assign line ty place value ih => exact .ofValue (lowerAssign_bare place ih.value true)
  | error line ty => exact .ofValue (.fail _ _)

theorem lowerValue_bare (e : Expr) : Agrees e.bare.lowerValue e.lowerValue := e.forms_bare.value

theorem lowerBranch_bare (e : Expr) (target : Label) (onTrue : Bool) :
    Agrees (e.bare.lowerBranch target onTrue) (e.lowerBranch target onTrue) := e.forms_bare.branch target onTrue

theorem lowerEffect_bare (e : Expr) : Agrees e.bare.lowerEffect e.lowerEffect := by
  cases e with
  | step => exact .refl _
  | assign line ty place value => exact lowerAssign_bare place value.lowerValue_bare false
  | literal | load | negate | not | binary | error => exact .bind (lowerValue_bare _) fun _ => .refl _

end Typed.Expr

namespace Typed.Stmt

theorem planGroups_bare (d : Option Label) (groups : List (SwitchGroup CaseLabel Stmt)) :
    planGroups d (groupsBare groups) = planGroups d groups := by
  induction groups generalizing d with
  | nil => rfl
  | cons group rest ih =>
    obtain ⟨labels, stmts⟩ := group
    simp only [groupsBare, planGroups, ih]

mutual

/-- Lowering a statement agrees with lowering the bare one. -/
theorem lower_bare (s : Stmt) : Agrees s.bare.lower s.lower := by
  match s with
  | .block line body => exact lowerAll_bare body
  | .declare line var none => exact .refl _
  | .declare line var (some init) => exact .bind init.lowerValue_bare fun _ => .refl _
  | .expr line e => exact e.lowerEffect_bare
  | .ifElse line c t none =>
    exact .after fun _ => .bind (c.lowerBranch_bare _ _) fun _ => .bind (lower_bare t) fun _ => .refl _
  | .ifElse line c t (some e) =>
    exact .after fun _ => .bind (c.lowerBranch_bare _ _) fun _ => .bind (lower_bare t) fun _ =>
      .after fun _ => .after fun _ => .after fun _ => .bind (lower_bare e) fun _ => .refl _
  | .whileDo line target c body =>
    exact .after fun _ => .after fun _ => .after fun _ => .after fun _ =>
      .bind (c.lowerBranch_bare _ _) fun _ => .bind (lower_bare body) fun _ => .refl _
  | .doWhile line target body c =>
    exact .after fun _ => .after fun _ => .after fun _ => .after fun _ => .after fun _ =>
      .bind (lower_bare body) fun _ => .after fun _ => .bind (c.lowerBranch_bare _ _) fun _ => .refl _
  | .forLoop line target init c update none =>
    refine .bind (lowerAll_bare init) fun _ => .after fun _ => .after fun _ => .after fun _ => .after fun _ =>
      .after fun _ => .after fun _ => .after fun _ => .after fun _ => .after fun _ =>
        .bind (lowerAll_bare update) fun _ => .after fun _ => ?_
    cases c with
    | none => exact .refl _
    | some c => exact .bind (c.lowerBranch_bare _ _) fun _ => .refl _
  | .forLoop line target init c update (some body) =>
    refine .bind (lowerAll_bare init) fun _ => .after fun _ => .after fun _ => .after fun _ => .after fun _ =>
      .after fun _ => .after fun _ => .after fun _ => .bind (lower_bare body) fun _ => .after fun _ =>
        .bind (lowerAll_bare update) fun _ => .after fun _ => ?_
    cases c with
    | none => exact .refl _
    | some c => exact .bind (c.lowerBranch_bare _ _) fun _ => .refl _
  | .switch line target d groups =>
    refine .bind d.lowerValue_bare fun _ => .after fun _ => .after fun _ => ?_
    rw [planGroups_bare]
    exact .after fun _ => .after fun _ => .bind (lowerGroups_bare _ groups) fun _ => .refl _
  | .breakOut line none | .breakOut line (some target) => exact .refl _
  | .continueLoop line none | .continueLoop line (some target) => exact .refl _
  | .ret line none => exact .refl _
  | .ret line (some value) =>
    refine .bind value.lowerValue_bare fun _ => ?_
    rw [Expr.ty_bare]
    exact .refl _
  | .empty line => exact .refl _

theorem lowerAll_bare (ss : List Stmt) : Agrees (lowerAll (allBare ss)) (lowerAll ss) := by
  match ss with
  | [] => exact .refl _
  | s :: rest => exact .bind (lower_bare s) fun _ => lowerAll_bare rest

theorem lowerGroups_bare (entries : List (List Label)) (groups : List (SwitchGroup CaseLabel Stmt)) :
    Agrees (lowerGroups entries (groupsBare groups)) (lowerGroups entries groups) := by
  match groups with
  | [] => exact .refl _
  | ⟨labels, stmts⟩ :: rest =>
    exact .after fun _ => .bind (lowerAll_bare stmts) fun _ => lowerGroups_bare entries.tail rest

end

end Typed.Stmt

end Stacklet
