import Mathlib.Data.Finset.Card
import Stacklet.Proofs.Typing.Limit
import Stacklet.Proofs.Typing.Subjects

/-!
# Mistakes in the labels of switches

The check goes through the labels of a switch group by group and checks whole statements in between, other
switches among them. What it reports on labels is still what the labels of each switch, all taken together,
give rise to: the labels met before are carried from group to group (`checkAll_append`), and nothing else is
reported as a mistake in a label (`Checks.reported_labels`). So these mistakes can be counted on the tree
(`label_mistakes_counted`).
-/

namespace Stacklet

/-- How many reports there are of a kind of mistake. -/
def reported (kind : Mistake) (ds : List Diagnostic) : Nat := ds.countP (·.kind == kind)

section

variable {kind : Mistake}

@[simp] theorem reported_nil : reported kind [] = 0 := List.countP_nil

@[simp] theorem reported_append (ds ds' : List Diagnostic) :
    reported kind (ds ++ ds') = reported kind ds + reported kind ds' := List.countP_append

theorem reported_again (d : Diagnostic) (again : Bool) :
    reported d.kind (reportUnless (!again) d).reports = again.toNat := by
  cases again with
  | true => simp [reportUnless, reported]
  | false => rfl

theorem reported_other {d : Diagnostic} (other : d.kind ≠ kind) (holds : Bool) :
    reported kind (reportUnless holds d).reports = 0 := by
  cases holds with
  | true => rfl
  | false => simp [reportUnless, reported, other]

/-- Reports about something else. -/
theorem AllAbout.reported_eq_zero {subject : Mistake.Subject} {ds : List Diagnostic} (about : AllAbout subject ds)
    (differs : kind.subject ≠ subject) : reported kind ds = 0 := by
  rw [reported, List.countP_eq_zero]
  intro d mem same
  apply differs
  rw [← about d mem, beq_iff_eq.1 same]

end

namespace Source

/-! ## The labels of one switch -/

namespace CaseLabel

/-- The value of a label that is an int constant: a literal, or a negated one. The negation wraps. -/
def constant? : CaseLabel → Option Int32
  | .case (.literal _ (.int v)) => some v
  | .case (.unary _ .negate (.literal _ (.int v))) => some (-v)
  | _ => none

/-- Whether a label is the default. -/
def isDefault : CaseLabel → Bool
  | .case _ => false
  | .otherwise => true

/-- Whether a label is a case that is no constant. -/
def isVariable : CaseLabel → Bool
  | .case (.literal _ (.int _)) | .case (.unary _ .negate (.literal _ (.int _))) | .otherwise => false
  | .case _ => true

/-- The constants among the labels of a switch, in order. -/
def constants (labels : List CaseLabel) : List Int32 := labels.filterMap constant?

/-- By how many the constants of a switch exceed their different values. -/
def repeatedCases (labels : List CaseLabel) : Nat := (constants labels).length - (constants labels).toFinset.card

/-- How many defaults a switch has beyond the first. -/
def repeatedDefaults (labels : List CaseLabel) : Nat := labels.countP isDefault - 1

/-- How many cases of a switch are no constants. -/
def variableCases (labels : List CaseLabel) : Nat := labels.countP isVariable

/-- How many mistakes of a kind there are in the labels of a switch. -/
def mistakes (kind : Mistake) (labels : List CaseLabel) : Nat :=
  match kind with
  | .duplicateCase => repeatedCases labels
  | .duplicateDefault => repeatedDefaults labels
  | .nonConstantCase => variableCases labels
  | _ => 0

variable {line : Line} {seen : LabelsSeen} {e : Expr} {rest : List CaseLabel}

theorem constant?_case (e : Expr) : constant? (.case e) = e.intConstant? := by
  unfold constant? Expr.intConstant?
  split <;> first | rfl | simp_all

theorem isVariable_case (e : Expr) : isVariable (.case e) = e.intConstant?.isNone := by
  unfold isVariable Expr.intConstant?
  split <;> first | rfl | simp_all

theorem constants_case {v : Int32} (h : e.intConstant? = some v) : constants (.case e :: rest) = v :: constants rest :=
  List.filterMap_cons_some ((constant?_case e).trans h)

theorem constants_variable (h : e.intConstant? = none) : constants (.case e :: rest) = constants rest :=
  List.filterMap_cons_none ((constant?_case e).trans h)

theorem constants_otherwise : constants (.otherwise :: rest) = constants rest := List.filterMap_cons_none rfl

/-- Labels that are met in two parts are reported like all of them at once. -/
theorem checkAll_append (line : Line) (seen : LabelsSeen) (labels more : List CaseLabel) :
    (checkAll line seen (labels ++ more)).reports =
      (checkAll line seen labels).reports ++ (checkAll line (checkAll line seen labels).value.2 more).reports := by
  induction labels generalizing seen with
  | nil => rfl
  | cons label rest ih =>
    rw [List.cons_append]
    cases label with
    | case e =>
      cases found : e.intConstant? with
      | none =>
        rw [reports_checkAll_variable found, reports_checkAll_variable found, ih, List.cons_append]
        rw [value_checkAll_variable found]
      | some v =>
        rw [reports_checkAll_case found, reports_checkAll_case found, ih, List.append_assoc]
        rw [value_checkAll_case found]
    | otherwise =>
      rw [reports_checkAll_otherwise, reports_checkAll_otherwise, ih, List.append_assoc]
      rw [value_checkAll_otherwise]

/-- Every constant is a new value, among those met before too, or is reported. -/
theorem reported_duplicateCase (line : Line) (seen : LabelsSeen) (labels : List CaseLabel) :
    reported .duplicateCase (checkAll line seen labels).reports + (constants labels ++ seen.cases).toFinset.card =
      (constants labels).length + seen.cases.toFinset.card := by
  induction labels generalizing seen with
  | nil =>
    rw [show constants [] = [] from rfl, List.nil_append]
    rfl
  | cons label rest ih =>
    cases label with
    | case e =>
      cases found : e.intConstant? with
      | none =>
        have step := ih seen
        rw [reports_checkAll_variable found, constants_variable found]
        exact step
      | some v =>
        have step := ih { seen with cases := v :: seen.cases }
        have moved : (constants rest ++ v :: seen.cases).toFinset = (v :: constants rest ++ seen.cases).toFinset := by
          ext w
          simp only [List.mem_toFinset, List.mem_append, List.mem_cons]
          tauto
        rw [moved] at step
        have told : reported .duplicateCase
            (reportUnless (!seen.cases.contains v) (.repeatedCase (lineIn line e) v)).reports =
            (seen.cases.contains v).toNat := reported_again (.repeatedCase (lineIn line e) v) _
        rw [reports_checkAll_case found, constants_case found, reported_append, told, List.length_cons]
        by_cases met : v ∈ seen.cases
        · rw [List.toFinset_cons, Finset.insert_eq_of_mem (List.mem_toFinset.2 met)] at step
          rw [List.contains_iff_mem.2 met, Bool.toNat_true]
          omega
        · rw [List.toFinset_cons (a := v) (l := seen.cases),
            Finset.card_insert_of_notMem fun mem => met (List.mem_toFinset.1 mem)] at step
          rw [Bool.eq_false_iff.2 fun again => met (List.contains_iff_mem.1 again), Bool.toNat_false]
          omega
    | otherwise =>
      have step := ih { seen with hasDefault := true }
      rw [reports_checkAll_otherwise, constants_otherwise, reported_append,
        reported_other (by simp [Diagnostic.repeatedDefault]), Nat.zero_add]
      exact step

/-- Every default is the first one, those met before included, or is reported. -/
theorem reported_duplicateDefault (line : Line) (seen : LabelsSeen) (labels : List CaseLabel) :
    reported .duplicateDefault (checkAll line seen labels).reports +
        min 1 (labels.countP isDefault + seen.hasDefault.toNat) =
      labels.countP isDefault + seen.hasDefault.toNat := by
  induction labels generalizing seen with
  | nil =>
    have small := seen.hasDefault.toNat_le
    rw [List.countP_nil, checkAll, Reporting.reports_pure, reported_nil]
    omega
  | cons label rest ih =>
    cases label with
    | case e =>
      rw [List.countP_cons_of_neg Bool.false_ne_true]
      cases found : e.intConstant? with
      | none =>
        rw [reports_checkAll_variable found]
        exact ih seen
      | some v =>
        rw [reports_checkAll_case found, reported_append, reported_other (by simp [Diagnostic.repeatedCase]),
          Nat.zero_add]
        exact ih { seen with cases := v :: seen.cases }
    | otherwise =>
      have step := ih { seen with hasDefault := true }
      have told : reported .duplicateDefault (reportUnless (!seen.hasDefault) (.repeatedDefault line)).reports =
          seen.hasDefault.toNat := reported_again (.repeatedDefault line) _
      rw [reports_checkAll_otherwise, reported_append, told, List.countP_cons_of_pos rfl]
      rw [Bool.toNat_true] at step
      omega

theorem reported_nonConstantCase (line : Line) (seen : LabelsSeen) (labels : List CaseLabel) :
    reported .nonConstantCase (checkAll line seen labels).reports = labels.countP isVariable := by
  induction labels generalizing seen with
  | nil => rfl
  | cons label rest ih =>
    cases label with
    | case e =>
      cases found : e.intConstant? with
      | none =>
        rw [reports_checkAll_variable found, List.countP_cons_of_pos (by simp [isVariable_case, found]), ← ih seen]
        exact List.countP_cons_of_pos rfl
      | some v =>
        rw [reports_checkAll_case found, reported_append, reported_other (by simp [Diagnostic.repeatedCase]),
          List.countP_cons_of_neg (by simp [isVariable_case, found]), ih, Nat.zero_add]
    | otherwise =>
      rw [reports_checkAll_otherwise, reported_append, reported_other (by simp [Diagnostic.repeatedDefault]),
        List.countP_cons_of_neg Bool.false_ne_true, ih, Nat.zero_add]

/-- The check of the labels of a switch reports the mistakes in them. -/
theorem reported_checkAll {kind : Mistake} (label : kind.subject = .label) (line : Line) (labels : List CaseLabel) :
    reported kind (checkAll line .none labels).reports = mistakes kind labels := by
  cases kind with
  | duplicateCase =>
    have all := reported_duplicateCase line .none labels
    have none : LabelsSeen.none.cases = [] := rfl
    rw [none, List.append_nil, List.toFinset_nil, Finset.card_empty] at all
    rw [mistakes, repeatedCases]
    omega
  | duplicateDefault =>
    have all := reported_duplicateDefault line .none labels
    have none : LabelsSeen.none.hasDefault.toNat = 0 := rfl
    rw [none] at all
    rw [mistakes, repeatedDefaults]
    omega
  | nonConstantCase => exact reported_nonConstantCase line .none labels
  | _ => cases label

end CaseLabel

/-! ## The switches of a program -/

/-- The labels of a switch, those of all its groups. -/
def groupLabels (groups : List (SwitchGroup CaseLabel Stmt)) : List CaseLabel := groups.flatMap (·.labels)

namespace Stmt

mutual

/-- The switches in a statement, at any depth, each with its own labels. -/
def switches : Stmt → List (List CaseLabel)
  | .block _ body => allSwitches body
  | .ifElse _ _ t none => t.switches
  | .ifElse _ _ t (some e) => t.switches ++ e.switches
  | .whileDo _ _ body => body.switches
  | .doWhile _ body _ => body.switches
  | .forLoop _ init _ update none => allSwitches init ++ allSwitches update
  | .forLoop _ init _ update (some body) => allSwitches init ++ (allSwitches update ++ body.switches)
  | .switch _ _ groups => groupLabels groups :: groupSwitches groups
  | .declare .. | .expr .. | .breakOut _ | .continueLoop _ | .ret .. | .empty _ => []

/-- The switches in statements. -/
def allSwitches : List Stmt → List (List CaseLabel)
  | [] => []
  | s :: rest => s.switches ++ allSwitches rest

/-- The switches in the blocks of a switch. -/
def groupSwitches : List (SwitchGroup CaseLabel Stmt) → List (List CaseLabel)
  | [] => []
  | ⟨_, stmts⟩ :: rest => allSwitches stmts ++ groupSwitches rest

end

end Stmt

/-- The switches of a program. -/
def Program.switches (p : Program) : List (List CaseLabel) := Stmt.allSwitches p.body

/-- A count over all switches. -/
def overSwitches (count : List CaseLabel → Nat) : List (List CaseLabel) → Nat
  | [] => 0
  | labels :: rest => count labels + overSwitches count rest

@[simp] theorem overSwitches_append (count : List CaseLabel → Nat) (switches more : List (List CaseLabel)) :
    overSwitches count (switches ++ more) = overSwitches count switches + overSwitches count more := by
  induction switches with
  | nil => rw [List.nil_append, overSwitches, Nat.zero_add]
  | cons labels rest ih => rw [List.cons_append, overSwitches, ih, overSwitches, Nat.add_assoc]

end Source

open Source

/-- How many mistakes of a kind there are in the labels of a piece of a program. Groups come after labels of the
same switch, which count as well. -/
def CheckedPiece.labelMistakes (kind : Mistake) : CheckedPiece → Nat
  | .stmt s _ => overSwitches (CaseLabel.mistakes kind) s.switches
  | .all ss _ => overSwitches (CaseLabel.mistakes kind) (Stmt.allSwitches ss)
  | .groups line seen gs _ =>
    reported kind (CaseLabel.checkAll line seen (groupLabels gs)).reports +
      overSwitches (CaseLabel.mistakes kind) (Stmt.groupSwitches gs)

open Check in
/-- The check of a piece of a program reports the mistakes in its labels, whatever else it reports. -/
theorem Checks.reported_labels {env : Surroundings} {piece : CheckedPiece} {st st' : CheckState}
    {ds : List Diagnostic} (h : Checks env piece st ds st') {kind : Mistake} (label : kind.subject = .label) :
    reported kind ds = piece.labelMistakes kind := by
  have other {ds : List Diagnostic} (about : AllAbout .other ds) : reported kind ds = 0 := by
    apply about.reported_eq_zero
    simp [label]
  have jump {ds : List Diagnostic} (about : AllAbout .jump ds) : reported kind ds = 0 := by
    apply about.reported_eq_zero
    simp [label]
  induction h with
  | block _ ih => exact ih
  | declare read => exact other (about_optional about_initializer read)
  | redeclare read => exact other ((about_optional about_initializer read).append (.single rfl))
  | expr read => exact other (.append (.ofUnless _ rfl) (about_expr read))
  | ifThen read _ ih => rw [reported_append, other (about_condition read), Nat.zero_add, ih]; rfl
  | ifElse read _ _ iht ihe =>
    rw [reported_append, reported_append, other (about_condition read), Nat.zero_add, iht, ihe]
    exact (overSwitches_append _ _ _).symm
  | whileDo read _ ih => rw [reported_append, other (about_condition read), Nat.zero_add, ih]; rfl
  | doWhile _ read ih => rw [reported_append, other (about_condition read), Nat.add_zero, ih]; rfl
  | forEmpty _ read _ ihi ihu =>
    rw [reported_append, reported_append, other (about_optional about_condition read), Nat.zero_add, ihi, ihu]
    exact (overSwitches_append _ _ _).symm
  | forLoop _ read _ _ ihi ihu ihb =>
    rw [reported_append, reported_append, reported_append, other (about_optional about_condition read),
      Nat.zero_add, ihi, ihu, ihb]
    simp only [CheckedPiece.labelMistakes, Stmt.switches, overSwitches_append]
  | switch read _ ih =>
    rw [reported_append, reported_append, other (about_expr read), other (.ofUnless _ rfl), ih]
    simp only [CheckedPiece.labelMistakes, Stmt.switches, overSwitches, CaseLabel.reported_checkAll label,
      Nat.zero_add]
  | breakOut | continueLoop => exact jump (.ofUnless _ rfl)
  | ret read result => exact other ((about_optional about_expr read).append (about_result result))
  | empty | nil => rfl
  | cons _ _ ihs ihr =>
    rw [reported_append, ihs, ihr]
    exact (overSwitches_append _ _ _).symm
  | noGroups => rfl
  | group labels _ _ ihs ihr =>
    rw [reported_append, reported_append, ihs, ihr]
    simp only [CheckedPiece.labelMistakes, Stmt.groupSwitches, overSwitches_append, groupLabels, List.flatMap_cons,
      CaseLabel.checkAll_append, reported_append, labels.value, labels.reports]
    omega

namespace Source.Program

/-- Mistakes in the labels of switches are counted exactly. The check without a limit reports, over all switches of
a program, as many repeated cases as there are constants beyond the different ones of the same switch, as many
repeated defaults as there are beyond the first of the same switch, and each case that is no constant. -/
theorem label_mistakes_counted (p : Program) :
    let ds := (p.analyze none).diagnostics
    (ds.ofKind .duplicateCase).length = overSwitches CaseLabel.repeatedCases p.switches ∧
    (ds.ofKind .duplicateDefault).length = overSwitches CaseLabel.repeatedDefaults p.switches ∧
    (ds.ofKind .nonConstantCase).length = overSwitches CaseLabel.variableCases p.switches := by
  obtain ⟨ds, st, checks, reports, -⟩ := p.check_checks
  have counted (kind : Mistake) (label : kind.subject = .label) :
      ((p.analyze none).diagnostics.ofKind kind).length = overSwitches (CaseLabel.mistakes kind) p.switches := by
    have fields : reported kind (enterFields .empty 0 p.fields).reports = 0 := by
      apply (enterFields_about _ _ _).reported_eq_zero
      simp [label]
    calc ((p.analyze none).diagnostics.ofKind kind).length
        = reported kind p.check.reports := by
          rw [Diagnostics.ofKind, analyze_eq, Diagnostics.recorded_ofReports_none, reported,
            List.countP_eq_length_filter]
      _ = reported kind ds := by rw [reports, reported_append, fields, Nat.zero_add]
      _ = overSwitches (CaseLabel.mistakes kind) p.switches := checks.reported_labels label
  exact ⟨counted .duplicateCase rfl, counted .duplicateDefault rfl, counted .nonConstantCase rfl⟩

/-- The least int is its own negation, so it is a case twice here; the switch inside has the same labels again, but
each of them once. -/
example :
    let least : Expr := .literal 1 (.int Int32.minValue)
    let inner : Stmt := .switch 2 (.literal 2 (.int 0)) [⟨[.case least, .otherwise], []⟩]
    let outer : Stmt := .switch 1 (.literal 1 (.int 0))
      [⟨[.case least, .otherwise], [inner]⟩, ⟨[.case (.unary 3 .negate least), .otherwise], []⟩]
    let p : Program := ⟨"Twice", [], none, [outer]⟩
    let ds := (p.analyze none).diagnostics
    (ds.ofKind .duplicateCase).length = 1 ∧ (ds.ofKind .duplicateDefault).length = 1 := by
  decide +kernel

end Source.Program

end Stacklet
