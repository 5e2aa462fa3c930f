import Stacklet.Proofs.Typing.Derivation

/-!
# What mistakes are about

A mistake is about a jump, about a label of a switch, or about something else. Expressions and their uses
have neither jumps nor labels, and the check of labels reports nothing but labels.
-/

namespace Stacklet

/-- What a mistake is about. -/
inductive Mistake.Subject where
  | jump
  | label
  | other
deriving DecidableEq

/-- A misplaced jump, a label of a switch, or anything else. -/
def Mistake.subject : Mistake → Subject
  | .misplacedBreak | .misplacedContinue => .jump
  | .duplicateCase | .duplicateDefault | .nonConstantCase => .label
  | .conditionType | .notAssignable | .operandType | .switchType | .typeMismatch | .undefinedName | .redeclared
  | .notAStatement | .returnType => .other

/-- Reports that are all about one subject. -/
def AllAbout (subject : Mistake.Subject) (ds : List Diagnostic) : Prop := ∀ d ∈ ds, d.kind.subject = subject

namespace AllAbout

variable {subject : Mistake.Subject} {ds ds' : List Diagnostic} {d : Diagnostic}

theorem nil : AllAbout subject [] := fun _ mem => absurd mem List.not_mem_nil

theorem single (h : d.kind.subject = subject) : AllAbout subject [d] := by
  intro d' mem
  rw [List.mem_singleton.1 mem, h]

theorem append (h : AllAbout subject ds) (h' : AllAbout subject ds') : AllAbout subject (ds ++ ds') := by
  intro d mem
  rcases List.mem_append.1 mem with mem | mem
  · exact h d mem
  · exact h' d mem

theorem ofUnless (holds : Bool) (h : d.kind.subject = subject) :
    AllAbout subject (reportUnless holds d).reports := by
  cases holds
  · exact single h
  · exact nil

end AllAbout

namespace Typed.Expr

open AllAbout

variable {line : Line}

theorem checkNegate_about (e : Expr) : AllAbout .other (checkNegate line e).reports := by
  unfold checkNegate
  split
  · exact nil
  · split
    · exact nil
    · exact single rfl

theorem checkNot_about (e : Expr) : AllAbout .other (checkNot line e).reports := by
  unfold checkNot
  split
  · exact nil
  · exact nil
  · exact single rfl

theorem checkStep_about (op : StepOp) (p : Place) : AllAbout .other (checkStep line op p).reports := by
  unfold checkStep
  split
  · exact nil
  · split
    · exact nil
    · exact single rfl

theorem checkBinary_about (op : BinaryOp) (l r : Expr) : AllAbout .other (checkBinary line op l r).reports := by
  unfold checkBinary
  split
  · exact nil
  · split
    · exact nil
    · exact single rfl

theorem checkAssign_about (p : Place) (e : Expr) : AllAbout .other (checkAssign line p e).reports := by
  rw [checkAssign_eq]
  split
  · exact nil
  · exact single rfl

end Typed.Expr

namespace Source

open AllAbout

namespace Expr

variable {names : Names} {line : Line}

theorem resolveName_about (name : String) : AllAbout .other (resolveName names line name).reports := by
  unfold resolveName
  split
  · exact nil
  · exact single rfl

theorem resolveField_about (name : String) : AllAbout .other (resolveField names line name).reports := by
  unfold resolveField
  split
  · exact nil
  · exact single rfl

theorem atPlace_about (place : Option Place) {check : Place → Reporting Typed.Expr}
    (h : ∀ p, AllAbout .other (check p).reports) : AllAbout .other (Typed.Expr.atPlace line place check).reports := by
  cases place with
  | none => exact nil
  | some p => exact h p

theorem resolvePlace_about (role : String) (operand : Expr) {checked : Reporting Typed.Expr} [checked.Steady]
    (h : AllAbout .other checked.reports) :
    AllAbout .other (resolvePlace names role operand checked).reports := by
  unfold resolvePlace
  split
  · exact resolveName_about _
  · exact resolveField_about _
  · rw [Reporting.reports_bind]
    exact h.append (single rfl)

/-- An expression has neither jumps nor labels. -/
theorem check_about (e : Expr) : AllAbout .other (e.check names).reports := by
  induction e with
  | literal line v => exact nil
  | var line name =>
    simp only [check, Reporting.reports_bind]
    exact (resolveName_about name).append nil
  | field line name =>
    simp only [check, Reporting.reports_bind]
    exact (resolveField_about name).append nil
  | unary line op e ih =>
    cases op <;> simp only [check, Reporting.reports_bind]
    · exact ih.append (Typed.Expr.checkNegate_about _)
    · exact ih.append (Typed.Expr.checkNot_about _)
  | step line op e ih =>
    simp only [check, Reporting.reports_bind]
    exact (resolvePlace_about _ e ih).append (atPlace_about _ fun p => Typed.Expr.checkStep_about _ p)
  | binary line op l r ihl ihr =>
    simp only [check, Reporting.reports_bind]
    exact ihl.append (ihr.append (Typed.Expr.checkBinary_about _ _ _))
  | assign line target value iht ihv =>
    simp only [check, Reporting.reports_bind]
    exact (resolvePlace_about _ target iht).append
      (ihv.append (atPlace_about _ fun p => Typed.Expr.checkAssign_about p _))

end Expr

/-- The check of labels reports nothing but labels. -/
theorem CaseLabel.checkAll_about (line : Line) (seen : LabelsSeen) (labels : List CaseLabel) :
    AllAbout .label (checkAll line seen labels).reports := by
  induction labels generalizing seen with
  | nil => exact nil
  | cons label rest ih =>
    cases label with
    | case e =>
      cases found : e.intConstant? with
      | some v =>
        rw [reports_checkAll_case found]
        exact (ofUnless _ rfl).append (ih _)
      | none =>
        rw [reports_checkAll_variable found]
        exact (single rfl).append (ih _)
    | otherwise =>
      rw [reports_checkAll_otherwise]
      exact (ofUnless _ rfl).append (ih _)

theorem CaseLabel.about_of_checkAll {line : Line} {seen : LabelsSeen} {labels : List CaseLabel}
    {result : List Typed.CaseLabel × LabelsSeen} {ds : List Diagnostic}
    (h : (checkAll line seen labels).Gives result ds) : AllAbout .label ds := by
  rw [← h.reports]
  exact checkAll_about line seen labels

theorem Program.enterFields_about (names : Names) (index : Nat) (fields : List FieldDecl) :
    AllAbout .other (enterFields names index fields).reports := by
  induction fields generalizing names index with
  | nil => exact nil
  | cons field rest ih =>
    cases added : names.addField? (UInt16.ofNat (min index 65535)) field with
    | some names' =>
      rw [enterFields, added]
      exact ih _ _
    | none =>
      rw [reports_enterFields_taken added]
      exact (single rfl).append (ih _ _)

end Source

namespace Check

open AllAbout

variable {st : CheckState} {ds : List Diagnostic} {e : Source.Expr} {t : Typed.Expr}

theorem about_expr (h : Reads (expr e) st t ds) : AllAbout .other ds := by
  rw [← (reads_expr.1 h).reports]
  exact e.check_about

theorem about_condition {construct : String} (h : Reads (condition construct e) st t ds) : AllAbout .other ds := by
  obtain ⟨ds₁, he, rfl⟩ := reads_condition.1 h
  exact (about_expr (reads_expr.2 he)).append (ofUnless _ rfl)

theorem about_initializer {ty : Ty} (h : Reads (initializer ty e) st t ds) : AllAbout .other ds := by
  obtain ⟨ds₁, he, rfl⟩ := reads_initializer.1 h
  exact (about_expr (reads_expr.2 he)).append (ofUnless _ rfl)

theorem about_optional {check : Source.Expr → Check Typed.Expr} [∀ e, (check e).Steady]
    (h : ∀ {e t st ds}, Reads (check e) st t ds → AllAbout .other ds) {e : Option Source.Expr}
    {t : Option Typed.Expr} (read : Reads (optional check e) st t ds) : AllAbout .other ds := by
  cases e with
  | none =>
    obtain ⟨-, rfl, -⟩ := gives_pure.1 read
    exact nil
  | some e =>
    obtain ⟨t', ds₁, st₁, ds₂, he, hp, rfl⟩ := gives_bind.1 read
    obtain ⟨-, rfl, same⟩ := gives_pure.1 hp
    rw [← same] at he
    exact (h he).append nil

theorem about_result {line : Line} {returns : Option Ty} {value : Option Typed.Expr} {u : Unit}
    (read : Reads (result line returns value) st u ds) : AllAbout .other ds := by
  cases returns with
  | none =>
    cases value with
    | none =>
      obtain ⟨-, rfl, -⟩ := gives_pure.1 read
      exact nil
    | some value =>
      obtain ⟨rfl, -⟩ := gives_report.1 read
      exact single rfl
  | some ty =>
    cases value with
    | none =>
      obtain ⟨rfl, -⟩ := gives_report.1 read
      exact single rfl
    | some value =>
      obtain ⟨rfl, -⟩ := gives_reportUnless.1 read
      exact ofUnless _ rfl

end Check

end Stacklet
