import Stacklet.Proofs.Typing.CheckedExpr
import Stacklet.Proofs.Typing.Rules

/-!
# The check decides the types of expressions

Where the names in scope show a context, the check of an expression reports nothing and gives a type
exactly if the rules give the expression that type (`check_iff`).
-/

namespace Stacklet

/-- Names that show a context: they stand for the same locals and fields, by their types. -/
structure Names.Shows (names : Names) (ctx : Context) : Prop where
  locals : ∀ name, (names.local? name).map (·.ty) = ctx.locals.lookup name
  fields : ∀ name ty, (names.field? name).map (·.ty) = some ty ↔ ⟨name, ty⟩ ∈ ctx.fields
  proper : ctx.Proper

/-! ## The forms that the rules tell apart -/

theorem Ty.isNumeric_iff {ty : Ty} : ty.isNumeric ↔ ty.Numeric := by
  constructor
  · intro h
    cases ty with
    | int => exact .int
    | long => exact .long
    | double => exact .double
    | boolean | any => cases h
  · intro h
    cases h <;> rfl

theorem Cond.isOrdering_iff {cond : Cond} : cond.isOrdering ↔ cond ∈ [.lt, .le, .gt, .ge] := by
  cases cond <;> decide

theorem Cond.isOrdering_eq_false_iff {cond : Cond} : cond.isOrdering = false ↔ cond ∈ [.eq, .ne] := by
  cases cond <;> decide

theorem Source.Expr.isEffect_iff {e : Source.Expr} : e.isEffect ↔ e.StandsAlone := by
  constructor
  · intro h
    cases e with
    | assign => exact .assign
    | step => exact .step
    | literal | var | field | unary | binary => cases h
  · intro h
    cases h <;> rfl

/-! ## Checks of one operation -/

/-- A check that gives a type without a report exactly if the type is right. -/
def Reporting.Types (checked : Reporting Typed.Expr) (right : Ty → Prop) : Prop :=
  ∀ ty, checked.reports = [] ∧ checked.value.ty = ty ↔ right ty

namespace Reporting.Types

variable {checked : Reporting Typed.Expr} {right right' : Ty → Prop}

theorem bind {next : Typed.Expr → Reporting Typed.Expr} [checked.Steady] [∀ t, (next t).Steady]
    (h : checked.Types right) (result : Ty → Ty → Prop)
    (h' : ∀ t, right t.ty → (next t).Types (result t.ty)) :
    (checked >>= next).Types fun ty => ∃ operand, right operand ∧ result operand ty := by
  intro ty
  rw [reports_bind, value_bind, List.append_eq_nil_iff]
  constructor
  · rintro ⟨⟨first, second⟩, typed⟩
    have typed' := (h _).1 ⟨first, rfl⟩
    exact ⟨_, typed', (h' _ typed' ty).1 ⟨second, typed⟩⟩
  · rintro ⟨operand, typed, holds⟩
    obtain ⟨first, rfl⟩ := (h operand).2 typed
    obtain ⟨second, typed'⟩ := (h' _ typed ty).2 holds
    exact ⟨⟨first, second⟩, typed'⟩

theorem congr (h : checked.Types right) (same : ∀ ty, right ty ↔ right' ty) : checked.Types right' :=
  fun ty => (h ty).trans (same ty)

/-- A check without a report that gives one type. -/
theorem ofValue {t : Typed.Expr} (h : ∀ ty, t.ty = ty ↔ right ty) : Types (pure t) right :=
  fun ty => (and_iff_right rfl).trans (h ty)

/-- A check behind one that gives a result without a report. -/
theorem behind {α : Type} {x : Reporting α} {next : α → Reporting Typed.Expr} [x.Steady] [∀ a, (next a).Steady]
    {a : α} (given : x.Gives a []) (h : (next a).Types right) : (x >>= next).Types right := by
  intro ty
  rw [reports_bind, value_bind, given.value, given.reports]
  exact h ty

/-- A check behind one that reports something gives no type. -/
theorem ofReports {α : Type} {x : Reporting α} {next : α → Reporting Typed.Expr} [x.Steady]
    [∀ a, (next a).Steady] (reported : x.reports ≠ []) (h : ∀ ty, ¬right ty) : (x >>= next).Types right := by
  intro ty
  rw [reports_bind, List.append_eq_nil_iff]
  exact ⟨fun silent => absurd silent.1.1 reported, fun holds => absurd holds (h ty)⟩

/-- A check that reports something gives no type. -/
theorem ofReport {d : Diagnostic} {t : Typed.Expr} (h : ∀ ty, ¬right ty) :
    Types (do report d; return t) right :=
  ofReports (List.cons_ne_nil _ _) h

end Reporting.Types

namespace Typed.Expr

open Reporting.Types

variable {line : Line}

theorem checkNegate_types {e : Expr} (proper : e.ty ≠ .any) :
    (checkNegate line e).Types fun ty => e.ty = ty ∧ ty.Numeric := by
  unfold checkNegate
  rw [if_neg proper]
  cases found : e.ty.kind? with
  | none =>
    refine ofReport ?_
    rintro _ ⟨rfl, numeric⟩
    rw [← Ty.isNumeric_iff, Ty.isNumeric, found] at numeric
    cases numeric
  | some kind =>
    have same : e.ty = kind.ty := by cases hte : e.ty <;> rw [hte] at found <;> cases found <;> rfl
    refine ofValue fun ty => ?_
    change kind.ty = ty ↔ _
    rw [same]
    refine (and_iff_left_of_imp ?_).symm
    rintro rfl
    rw [← Ty.isNumeric_iff, Ty.isNumeric, kind.kind?_ty]
    rfl

theorem checkNot_types {e : Expr} (proper : e.ty ≠ .any) :
    (checkNot line e).Types fun ty => e.ty = .boolean ∧ ty = .boolean := by
  unfold checkNot
  cases found : e.ty with
  | boolean => exact ofValue fun ty => ⟨fun same => ⟨rfl, same.symm⟩, fun same => same.2.symm⟩
  | any => exact absurd found proper
  | int | long | double => exact ofReport fun ty => nofun

theorem checkStep_types {op : StepOp} {p : Place} (proper : p.ty ≠ .any) :
    (checkStep line op p).Types fun ty => p.ty = ty ∧ ty.Numeric := by
  unfold checkStep
  rw [if_neg proper]
  split
  · next numeric => exact ofValue fun ty => ⟨fun same => ⟨same, same ▸ Ty.isNumeric_iff.1 numeric⟩, fun same => same.1⟩
  · next other =>
    refine ofReport ?_
    rintro _ ⟨rfl, numeric⟩
    exact other (Ty.isNumeric_iff.2 numeric)

theorem checkBinary_types {op : BinaryOp} {l r : Expr} (properL : l.ty ≠ .any) (properR : r.ty ≠ .any) :
    (checkBinary line op l r).Types fun ty => op.resultType? l.ty r.ty = some ty := by
  unfold checkBinary
  rw [if_neg (by simp [properL, properR])]
  cases op.resultType? l.ty r.ty with
  | none => exact ofReport nofun
  | some ty => exact ofValue fun ty => Option.some_inj.symm

end Typed.Expr

theorem Ty.agrees_iff {t u : Ty} (ht : t ≠ .any) (hu : u ≠ .any) : t.agrees u ↔ t = u := by
  refine ⟨fun agrees => Typed.Expr.eq_of_agrees agrees ht hu, ?_⟩
  rintro rfl
  simp [agrees]

theorem Typed.Expr.checkAssign_types {line : Line} {p : Place} {e : Expr} (properP : p.ty ≠ .any)
    (properE : e.ty ≠ .any) : (checkAssign line p e).Types fun ty => e.ty = p.ty ∧ p.ty = ty := by
  rw [checkAssign_eq]
  split
  · next agrees =>
    exact .ofValue fun ty => (and_iff_right ((Ty.agrees_iff properE properP).1 agrees)).symm
  · next differs =>
    exact .ofReport fun ty same => differs ((Ty.agrees_iff properE properP).2 same.1)

/-! ## Expressions -/

namespace Source.Expr

open Typed.Expr

variable {ctx : Context} {names : Names}

/-- A name stands for a place of the type that the rules give it. -/
theorem lookup_iff (shows : names.Shows ctx) {line : Line} {name : String} {ty : Ty} :
    (names.lookup? name).map (·.ty) = some ty ↔ (var line name).HasTy ctx ty := by
  have same := shows.locals name
  unfold Names.lookup?
  cases found : names.local? name with
  | some v =>
    rw [found] at same
    constructor
    · intro h
      exact .visible (same.symm.trans h)
    · intro h
      cases h with
      | visible h => exact same.trans h
      | implied h => rw [h] at same; cases same
  | none =>
    rw [found] at same
    have fields : ((names.field? name).map Place.ofField).map (·.ty) = some ty ↔ ⟨name, ty⟩ ∈ ctx.fields := by
      rw [← shows.fields, Option.map_map]
      rfl
    refine fields.trans ⟨fun mem => .implied same.symm mem, fun h => ?_⟩
    cases h with
    | visible h => rw [h] at same; cases same
    | implied _ mem => exact mem

theorem field_iff (shows : names.Shows ctx) {line : Line} {name : String} {ty : Ty} :
    (names.field? name).map (·.ty) = some ty ↔ (field line name).HasTy ctx ty := by
  rw [shows.fields]
  refine ⟨.field, fun h => ?_⟩
  cases h with
  | field mem => exact mem

/-- An operand is resolved to a place without a report exactly if it names one, and its type is that of
the place. -/
theorem resolvePlace_cases (shows : names.Shows ctx) (role : String) (operand : Expr)
    (checked : Reporting Typed.Expr) [checked.Steady] :
    (∃ p, (resolvePlace names role operand checked).Gives (some p) [] ∧ operand.isPlace ∧
      ∀ ty, p.ty = ty ↔ operand.HasTy ctx ty) ∨
    (resolvePlace names role operand checked).reports ≠ [] ∧
      ∀ ty, operand.isPlace → ¬operand.HasTy ctx ty := by
  cases operand with
  | var line name =>
    have types (ty : Ty) : _ ↔ (var line name).HasTy ctx ty := lookup_iff shows
    change (∃ p, (resolveName names line name).Gives _ _ ∧ _) ∨ (resolveName names line name).reports ≠ [] ∧ _
    unfold resolveName
    cases found : names.lookup? name with
    | some p =>
      refine .inl ⟨p, ⟨rfl, rfl⟩, rfl, fun ty => ?_⟩
      rw [← types ty, found]
      exact Option.some_inj.symm
    | none =>
      refine .inr ⟨List.cons_ne_nil _ _, fun ty _ h => ?_⟩
      rw [← types ty, found] at h
      cases h
  | field line name =>
    have types (ty : Ty) : _ ↔ (field line name).HasTy ctx ty := field_iff shows
    change (∃ p, (resolveField names line name).Gives _ _ ∧ _) ∨ (resolveField names line name).reports ≠ [] ∧ _
    unfold resolveField
    cases found : names.field? name with
    | some ref =>
      refine .inl ⟨.ofField ref, ⟨rfl, rfl⟩, rfl, fun ty => ?_⟩
      rw [← types ty, found]
      exact Option.some_inj.symm
    | none =>
      refine .inr ⟨List.cons_ne_nil _ _, fun ty _ h => ?_⟩
      rw [← types ty, found] at h
      cases h
  | literal | unary | step | binary | assign =>
    refine .inr ⟨fun silent => ?_, fun ty place => by cases place⟩
    simp only [resolvePlace, Reporting.reports_bind, List.append_eq_nil_iff] at silent
    cases silent.2.1

/-- Reading a place has the type of the place. -/
theorem ofPlace_types (shows : names.Shows ctx) (line : Line) {operand : Expr} (place : operand.isPlace) :
    (do return ofPlace line (← resolvePlace names "" operand (pure (failed line)))).Types
      (operand.HasTy ctx) := by
  rcases resolvePlace_cases shows "" operand (pure (failed line)) with
    ⟨p, resolved, -, types⟩ | ⟨reported, untyped⟩
  · exact .behind resolved (.ofValue types)
  · exact .ofReports reported fun ty => untyped ty place

/-- An operation has the result of its operator on the types of its operands. -/
theorem binary_iff {line : Line} {op : BinaryOp} {l r : Expr} {ty : Ty} :
    (binary line op l r).HasTy ctx ty ↔
      ∃ tl, l.HasTy ctx tl ∧ ∃ tr, r.HasTy ctx tr ∧ op.resultType? tl tr = some ty := by
  constructor
  · intro h
    cases h with
    | arith hl hr numeric =>
      rw [← Ty.isNumeric_iff] at numeric
      exact ⟨ty, hl, ty, hr, by simp [BinaryOp.resultType?, numeric]⟩
    | ordering ordered hl hr numeric =>
      rw [← Cond.isOrdering_iff] at ordered
      rw [← Ty.isNumeric_iff] at numeric
      exact ⟨_, hl, _, hr, by simp [BinaryOp.resultType?, ordered, numeric]⟩
    | equality unordered hl hr =>
      rw [← Cond.isOrdering_eq_false_iff] at unordered
      exact ⟨_, hl, _, hr, by simp [BinaryOp.resultType?, unordered]⟩
    | logic hl hr => exact ⟨_, hl, _, hr, rfl⟩
  · rintro ⟨tl, hl, tr, hr, result⟩
    cases op with
    | arith op =>
      simp only [BinaryOp.resultType?, Option.ite_none_right_eq_some, Bool.and_eq_true, beq_iff_eq,
        Option.some_inj] at result
      obtain ⟨⟨rfl, numeric⟩, rfl⟩ := result
      exact .arith hl hr (Ty.isNumeric_iff.1 numeric)
    | compare cond =>
      simp only [BinaryOp.resultType?, Option.ite_none_right_eq_some, Option.some_inj] at result
      obtain ⟨allowed, rfl⟩ := result
      split at allowed
      · next ordered =>
        simp only [Bool.and_eq_true, beq_iff_eq] at allowed
        obtain ⟨rfl, numeric⟩ := allowed
        exact .ordering (Cond.isOrdering_iff.1 ordered) hl hr (Ty.isNumeric_iff.1 numeric)
      · next unordered =>
        rw [beq_iff_eq] at allowed
        exact .equality (Cond.isOrdering_eq_false_iff.1 (Bool.eq_false_iff.2 unordered)) hl (allowed ▸ hr)
    | logic op =>
      simp only [BinaryOp.resultType?, Option.ite_none_right_eq_some, Bool.and_eq_true, beq_iff_eq,
        Option.some_inj] at result
      obtain ⟨⟨rfl, rfl⟩, rfl⟩ := result
      exact .logic hl hr

/-- The check gives an expression a type without a report exactly if the rules do. -/
theorem check_types (shows : names.Shows ctx) (e : Expr) : (e.check names).Types (e.HasTy ctx) := by
  induction e with
  | literal line v =>
    refine .ofValue fun ty => ⟨?_, fun h => ?_⟩
    · rintro rfl
      exact .literal
    · cases h with
      | literal => rfl
  | var line name => exact ofPlace_types shows line (show (var line name).isPlace from rfl)
  | field line name => exact ofPlace_types shows line (show (field line name).isPlace from rfl)
  | unary line op e ih =>
    cases op with
    | negate =>
      refine (ih.bind (fun operand ty => operand = ty ∧ ty.Numeric) fun t typed =>
        checkNegate_types (typed.ne_any shows.proper)).congr fun ty => ?_
      constructor
      · rintro ⟨_, typed, rfl, numeric⟩
        exact .negate typed numeric
      · intro h
        cases h with
        | negate typed numeric => exact ⟨ty, typed, rfl, numeric⟩
    | not =>
      refine (ih.bind (fun operand ty => operand = .boolean ∧ ty = .boolean) fun t typed =>
        checkNot_types (typed.ne_any shows.proper)).congr fun ty => ?_
      constructor
      · rintro ⟨_, typed, rfl, rfl⟩
        exact .not typed
      · intro h
        cases h with
        | not typed => exact ⟨.boolean, typed, rfl, rfl⟩
  | step line op e =>
    rcases resolvePlace_cases shows ("Operand to " ++ op.symbol) e (e.check names) with
      ⟨p, resolved, place, types⟩ | ⟨reported, untyped⟩
    · have typed := (types p.ty).1 rfl
      refine .behind resolved ((checkStep_types (typed.ne_any shows.proper)).congr fun ty => ?_)
      rw [types]
      refine ⟨fun both => .step place both.1 both.2, fun h => ?_⟩
      cases h with
      | step _ typed numeric => exact ⟨typed, numeric⟩
    · refine .ofReports reported fun ty h => ?_
      cases h with
      | step place typed => exact absurd typed (untyped ty place)
  | binary line op l r ihl ihr =>
    refine (ihl.bind (fun tl ty => ∃ tr, r.HasTy ctx tr ∧ op.resultType? tl tr = some ty) fun tl hl =>
      ihr.bind (fun tr ty => op.resultType? tl.ty tr = some ty) fun tr hr =>
        checkBinary_types (hl.ne_any shows.proper) (hr.ne_any shows.proper)).congr fun ty => ?_
    exact binary_iff.symm
  | assign line target value _ ih =>
    rcases resolvePlace_cases shows "Assignment target" target (target.check names) with
      ⟨p, resolved, place, types⟩ | ⟨reported, untyped⟩
    · have typed := (types p.ty).1 rfl
      refine .behind resolved ((ih.bind (fun valued ty => valued = p.ty ∧ p.ty = ty) fun t valued =>
        checkAssign_types (typed.ne_any shows.proper) (valued.ne_any shows.proper)).congr fun ty => ?_)
      rw [types]
      constructor
      · rintro ⟨_, valued, rfl, typed⟩
        obtain rfl := (types ty).2 typed
        exact .assign place typed valued
      · intro h
        cases h with
        | assign _ typed valued => exact ⟨ty, valued, ((types ty).2 typed).symm, typed⟩
    · refine .ofReports reported fun ty h => ?_
      cases h with
      | assign place typed => exact absurd typed (untyped ty place)

end Source.Expr

end Stacklet
