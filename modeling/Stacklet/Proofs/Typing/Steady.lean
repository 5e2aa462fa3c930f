import Stacklet.Checking.Program
import Stacklet.Proofs.Typing.Reports

/-!
# The check does not see the limit

Every check of the compiler is handed the diagnostics so far and goes on with them, and none of them looks at
what they hold: by induction over expressions (`Source.Expr.check_steady`), statements
(`Source.Stmt.check_steady`) and programs, what a check gives and what it adds to the diagnostics are the same
whatever they are. The diagnostics of a program are then those of one list of reports, under its limit
(`Source.Program.analyze_eq`).
-/

namespace Stacklet

open Reporting

/-! ## Expressions -/

namespace Typed.Expr

instance (line : Line) (operand : Expr) : Steady (operand.checkNegate line) := by
  rw [checkNegate]
  split
  · infer_instance
  · split <;> infer_instance

instance (line : Line) (operand : Expr) : Steady (operand.checkNot line) := by
  rw [checkNot]
  split <;> infer_instance

instance (line : Line) (op : StepOp) (place : Place) : Steady (checkStep line op place) := by
  rw [checkStep]
  infer_instance

instance (line : Line) (op : BinaryOp) (lhs rhs : Expr) : Steady (checkBinary line op lhs rhs) := by
  rw [checkBinary]
  split
  · infer_instance
  · split <;> infer_instance

instance (line : Line) (place : Place) (value : Expr) : Steady (checkAssign line place value) := by
  rw [checkAssign]
  infer_instance

/-- An assignment is kept if the types agree. -/
theorem checkAssign_eq (line : Line) (place : Place) (value : Expr) :
    checkAssign line place value =
      if value.ty.agrees place.ty then pure (.assign line place.ty place value)
      else do
        report (.mismatch line value.ty place.ty)
        return failed line := by
  rw [checkAssign, expect_eq, reportUnless]
  split
  · next agree => rw [agree]; rfl
  · next differ => rw [eq_false_of_ne_true differ]; rfl

instance (line : Line) (place : Option Place) (check : Place → Reporting Expr) [∀ place, (check place).Steady] :
    Steady (atPlace line place check) := by
  rw [atPlace.eq_def]
  split <;> infer_instance

end Typed.Expr

namespace Source.Expr

instance (names : Names) (line : Line) (name : String) : Steady (resolveName names line name) := by
  rw [resolveName]
  split <;> infer_instance

instance (names : Names) (line : Line) (name : String) : Steady (resolveField names line name) := by
  rw [resolveField]
  split <;> infer_instance

instance (names : Names) (role : String) (operand : Expr) (checked : Reporting Typed.Expr) [checked.Steady] :
    Steady (resolvePlace names role operand checked) := by
  rw [resolvePlace.eq_def]
  split <;> infer_instance

/-- The check of an expression is steady. -/
instance check_steady (names : Names) (e : Expr) : Steady (e.check names) := by
  induction e with
  | literal line value => rw [check]; infer_instance
  | var line name => rw [check]; infer_instance
  | field line name => rw [check]; infer_instance
  | unary line op operand ih => cases op <;> (rw [check]; infer_instance)
  | step line op operand ih => rw [check]; infer_instance
  | binary line op lhs rhs ihl ihr => rw [check]; infer_instance
  | assign line target value iht ihv => rw [check]; infer_instance

end Source.Expr

/-! ## Statements -/

namespace Check

variable {α β : Type}

/-- A check of statements that is steady from every state. -/
class Steady (x : Check α) : Prop where
  from_state : ∀ st, Reporting.Steady (x.run st)

instance (x : Check α) [x.Steady] (st : CheckState) : Reporting.Steady (StateT.run x st) := Steady.from_state st

instance (a : α) : Steady (pure a : Check α) :=
  ⟨fun st => inferInstanceAs (Reporting.Steady (pure (a, st)))⟩

instance : Steady (get : Check CheckState) := ⟨fun st => inferInstanceAs (Reporting.Steady (pure (st, st)))⟩

instance (change : CheckState → CheckState) : Steady (modify change : Check Unit) :=
  ⟨fun st => inferInstanceAs (Reporting.Steady (pure ((), change st)))⟩

instance (x : Reporting α) [x.Steady] : Steady (StateT.lift x : Check α) :=
  ⟨fun st => inferInstanceAs (Reporting.Steady (x >>= fun a => pure (a, st)))⟩

instance (x : Check α) (f : α → Check β) [x.Steady] [∀ a, (f a).Steady] : Steady (x >>= f) :=
  ⟨fun st => inferInstanceAs (Reporting.Steady (x.run st >>= fun result => (f result.1).run result.2))⟩

instance (d : Diagnostic) : Steady (report d) := by rw [report]; infer_instance

instance (holds : Bool) (d : Diagnostic) : Steady (reportUnless holds d) := by rw [reportUnless]; infer_instance

instance (e : Source.Expr) : Steady (expr e) := by rw [expr]; infer_instance

instance (check : Check α) [check.Steady] : Steady (inScope check) := by rw [inScope]; infer_instance

instance : Steady freshTarget := by rw [freshTarget]; infer_instance

instance (construct : String) (e : Source.Expr) : Steady (condition construct e) := by
  rw [condition]
  infer_instance

instance (check : Source.Expr → Check Typed.Expr) [∀ e, (check e).Steady] (e : Option Source.Expr) :
    Steady (optional check e) := by
  cases e <;> (rw [optional]; infer_instance)

instance (ty : Ty) (e : Source.Expr) : Steady (initializer ty e) := by rw [initializer]; infer_instance

/-- The value of a local is reported if its type does not agree, and kept. -/
theorem initializer_eq (ty : Ty) (e : Source.Expr) :
    initializer ty e = do
      let typed ← expr e
      reportUnless (typed.ty.agrees ty) (.mismatch typed.line typed.ty ty)
      return typed := by
  simp only [initializer, expect_eq]
  rfl

instance (line : Line) (name : String) (init : Option Typed.Expr) (found : Option (LocalVar × Names)) :
    Steady (enter line name init found) := by
  cases found <;> (rw [enter]; infer_instance)

instance (line : Line) (name : String) (ty : Ty) (init : Option Source.Expr) :
    Steady (declare line name ty init) := by
  rw [declare]
  infer_instance

instance (line : Line) (returns : Option Ty) (value : Option Typed.Expr) : Steady (result line returns value) := by
  cases returns <;> cases value <;> (rw [result]; infer_instance)

end Check

namespace Source

namespace CaseLabel

instance checkAll_steady (line : Line) (seen : LabelsSeen) (labels : List CaseLabel) :
    Reporting.Steady (checkAll line seen labels) := by
  induction labels generalizing seen with
  | nil => rw [checkAll]; infer_instance
  | cons label rest ih =>
    cases label with
    | case e =>
      rw [checkAll]
      split <;> infer_instance
    | otherwise => rw [checkAll]; infer_instance

variable {line : Line} {seen : LabelsSeen} {e : Expr} {rest : List CaseLabel}

theorem reports_checkAll_case {v : Int32} (h : e.intConstant? = some v) :
    (checkAll line seen (.case e :: rest)).reports =
      (reportUnless (!seen.cases.contains v) (.repeatedCase (lineIn line e) v)).reports ++
        (checkAll line { seen with cases := v :: seen.cases } rest).reports := by
  simp only [checkAll, h, reports_bind, reports_pure, List.append_nil]

theorem reports_checkAll_variable (h : e.intConstant? = none) :
    (checkAll line seen (.case e :: rest)).reports =
      .variableCase (lineIn line e) e :: (checkAll line seen rest).reports := by
  simp only [checkAll, h, reports_bind]
  rfl

theorem reports_checkAll_otherwise :
    (checkAll line seen (.otherwise :: rest)).reports =
      (reportUnless (!seen.hasDefault) (.repeatedDefault line)).reports ++
        (checkAll line { seen with hasDefault := true } rest).reports := by
  simp only [checkAll, reports_bind, reports_pure, List.append_nil]

theorem value_checkAll_case {v : Int32} (h : e.intConstant? = some v) :
    (checkAll line seen (.case e :: rest)).value =
      let checked := (checkAll line { seen with cases := v :: seen.cases } rest).value
      (.case v :: checked.1, checked.2) := by
  simp only [checkAll, h, value_bind, value_pure]

theorem value_checkAll_variable (h : e.intConstant? = none) :
    (checkAll line seen (.case e :: rest)).value = (checkAll line seen rest).value := by
  simp only [checkAll, h, value_bind]

theorem value_checkAll_otherwise :
    (checkAll line seen (.otherwise :: rest)).value =
      let checked := (checkAll line { seen with hasDefault := true } rest).value
      (.otherwise :: checked.1, checked.2) := by
  simp only [checkAll, value_bind, value_pure]

end CaseLabel

namespace Stmt

mutual

/-- The check of a statement is steady. -/
theorem check_steady (env : Surroundings) (s : Stmt) : (s.check env).Steady := by
  match s with
  | .block line body =>
    have := checkAll_steady env body
    rw [check]
    infer_instance
  | .declare line name ty init => rw [check]; infer_instance
  | .expr line e => rw [check]; infer_instance
  | .ifElse line c t none =>
    have := check_steady env t
    rw [check]
    infer_instance
  | .ifElse line c t (some e) =>
    have := check_steady env t
    have := check_steady env e
    rw [check]
    infer_instance
  | .whileDo line c body =>
    have := fun env => check_steady env body
    rw [check]
    infer_instance
  | .doWhile line body c =>
    have := fun env => check_steady env body
    rw [check]
    infer_instance
  | .forLoop line init c update none =>
    have := checkAll_steady env init
    have := fun env => checkAll_steady env update
    rw [check]
    infer_instance
  | .forLoop line init c update (some body) =>
    have := checkAll_steady env init
    have := fun env => checkAll_steady env update
    have := fun env => check_steady env body
    rw [check]
    infer_instance
  | .switch line d groups =>
    have := fun env => checkGroups_steady env line .none groups
    rw [check]
    infer_instance
  | .breakOut line => rw [check]; infer_instance
  | .continueLoop line => rw [check]; infer_instance
  | .ret line value => rw [check]; infer_instance
  | .empty line => rw [check]; infer_instance

/-- The check of statements in order is steady. -/
theorem checkAll_steady (env : Surroundings) (ss : List Stmt) : (checkAll env ss).Steady := by
  match ss with
  | [] => rw [checkAll]; infer_instance
  | s :: rest =>
    have := check_steady env s
    have := checkAll_steady env rest
    rw [checkAll]
    infer_instance

/-- The check of the groups of a switch is steady. -/
theorem checkGroups_steady (env : Surroundings) (line : Line) (seen : LabelsSeen)
    (groups : List (SwitchGroup CaseLabel Stmt)) : (checkGroups env line seen groups).Steady := by
  match groups with
  | [] => rw [checkGroups]; infer_instance
  | ⟨labels, stmts⟩ :: rest =>
    have := checkAll_steady env stmts
    have := fun seen => checkGroups_steady env line seen rest
    rw [checkGroups]
    infer_instance

end

attribute [instance] check_steady checkAll_steady checkGroups_steady

end Stmt

/-! ## Programs -/

namespace Program

instance enterFields_steady (names : Names) (index : Nat) (fields : List FieldDecl) :
    Reporting.Steady (enterFields names index fields) := by
  induction fields generalizing names index with
  | nil => rw [enterFields]; infer_instance
  | cons field rest ih =>
    rw [enterFields]
    split <;> infer_instance

section

variable {names : Names} {index : Nat} {field : FieldDecl} {rest : List FieldDecl}
  (taken : names.addField? (UInt16.ofNat (min index 65535)) field = none)
include taken

theorem value_enterFields_taken :
    (enterFields names index (field :: rest)).value = (enterFields names (index + 1) rest).value := by
  simp only [enterFields, taken, value_bind]

theorem reports_enterFields_taken :
    (enterFields names index (field :: rest)).reports =
      .repeatedField field.name :: (enterFields names (index + 1) rest).reports := by
  simp only [enterFields, taken, reports_bind]
  rfl

end

/-- The check of a program is steady. -/
instance check_steady (p : Program) : Reporting.Steady p.check := by rw [check]; infer_instance

/-- The check of a program is that of its fields, and then that of its body. -/
theorem reports_check (p : Program) :
    p.check.reports = (enterFields .empty 0 p.fields).reports ++
      Reporting.reports ((Stmt.checkAll ⟨p.returns, []⟩ p.body).run ⟨(enterFields .empty 0 p.fields).value, 0⟩) := by
  simp only [check, reports_bind, reports_pure, List.append_nil]

theorem value_check (p : Program) :
    p.check.value =
      let checked := Reporting.value
        ((Stmt.checkAll ⟨p.returns, []⟩ p.body).run ⟨(enterFields .empty 0 p.fields).value, 0⟩)
      ⟨p.name, p.fields, p.returns, checked.2.names.nextSlot, checked.1⟩ := by
  simp only [check, value_bind, value_pure]

/-- Under any limit a program comes to one tree and one list of reports. -/
theorem analyze_eq (limit : Option Nat) (p : Program) :
    p.analyze limit = ⟨p.check.value, .ofReports limit p.check.reports⟩ := by
  rw [analyze, run_withLimit]

theorem program_analyze (limit : Option Nat) (p : Program) : (p.analyze limit).program = p.check.value := by
  rw [analyze_eq]

end Program

end Source

end Stacklet
