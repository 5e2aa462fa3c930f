import Stacklet.Checking.Reporting

/-!
# Reports under a limit

Diagnostics keep the first reports up to their limit and count the others: one report keeps this
(`Keeps.report`), so that it holds after all of them (`keeps_ofReports`). A check is steady if the diagnostics it
is handed have no say in it: it gives one result, and adds one list of reports to whatever was reported before.
Steady checks in sequence are steady, and report one after the other (`gives_bind`).
-/

namespace Stacklet

namespace Diagnostics

/-- The diagnostics of a list of reports under a limit. -/
def ofReports (limit : Option Nat) (reports : List Diagnostic) : Diagnostics :=
  reports.foldl report (withLimit limit)

/-- What a limit leaves of reports. -/
def kept (limit : Option Nat) (reports : List Diagnostic) : List Diagnostic :=
  reports.take (limit.getD reports.length)

@[simp] theorem kept_none (reports : List Diagnostic) : kept none reports = reports := List.take_length

@[simp] theorem kept_some (n : Nat) (reports : List Diagnostic) : kept (some n) reports = reports.take n := rfl

/-- Diagnostics that hold what their limit leaves of the reports so far, and have counted all of them. -/
structure Keeps (ds : Diagnostics) (limit : Option Nat) (reports : List Diagnostic) : Prop where
  bound : ds.limit = limit
  recorded : ds.recorded.toList = kept limit reports
  total : ds.total = reports.length

variable {ds : Diagnostics} {limit : Option Nat} {reports : List Diagnostic}

theorem Keeps.size (h : ds.Keeps limit reports) : ds.recorded.size = (kept limit reports).length := by
  rw [← h.recorded, Array.length_toList]

theorem keeps_withLimit (limit : Option Nat) : (withLimit limit).Keeps limit [] :=
  ⟨rfl, List.take_nil.symm, rfl⟩

/-- The limit is reached when there are as many reports as it leaves. -/
theorem Keeps.isFull_iff (h : ds.Keeps limit reports) : ds.isFull ↔ ∃ n, limit = some n ∧ n ≤ reports.length := by
  rw [isFull, h.bound, h.size]
  cases limit with
  | none => simp
  | some n =>
    rw [kept_some, List.length_take, Option.any_some, decide_eq_true_iff, Nat.le_min]
    simp

/-- One report more. -/
theorem Keeps.report (h : ds.Keeps limit reports) (d : Diagnostic) :
    (ds.report d).Keeps limit (reports ++ [d]) := by
  have count : ds.recorded.size + ds.suppressed = reports.length := h.total
  unfold Diagnostics.report
  split
  · next full =>
    obtain ⟨n, rfl, reached⟩ := h.isFull_iff.1 full
    refine ⟨h.bound, ?_, ?_⟩
    · rw [h.recorded, kept_some, kept_some, List.take_append_of_le_length reached]
    · rw [Diagnostics.total, List.length_append, ← count]
      rfl
  · next free =>
    refine ⟨h.bound, ?_, ?_⟩
    · rw [Array.toList_push, h.recorded]
      cases limit with
      | none => rw [kept_none, kept_none]
      | some n =>
        have short : reports.length < n := Nat.lt_of_not_le fun reached => free (h.isFull_iff.2 ⟨n, rfl, reached⟩)
        rw [kept_some, kept_some, List.take_of_length_le (Nat.le_of_lt short),
          List.take_of_length_le (by rw [List.length_append]; exact short)]
    · rw [Diagnostics.total, Array.size_push, List.length_append, ← count]
      exact Nat.add_right_comm _ _ _

/-- All reports one after the other. -/
theorem Keeps.foldl (h : ds.Keeps limit reports) (more : List Diagnostic) :
    (more.foldl Diagnostics.report ds).Keeps limit (reports ++ more) := by
  induction more generalizing ds reports with
  | nil => rwa [List.append_nil]
  | cons d more ih =>
    rw [List.foldl_cons, List.append_cons]
    exact ih (h.report d)

theorem keeps_ofReports (limit : Option Nat) (reports : List Diagnostic) :
    (ofReports limit reports).Keeps limit reports :=
  (keeps_withLimit limit).foldl reports

/-- Without a limit all reports are recorded. -/
theorem recorded_ofReports_none (reports : List Diagnostic) :
    (ofReports none reports).recorded.toList = reports := by
  rw [(keeps_ofReports none reports).recorded, kept_none]

/-- What is not recorded is counted. -/
theorem suppressed_ofReports (limit : Option Nat) (reports : List Diagnostic) :
    (ofReports limit reports).suppressed = reports.length - (kept limit reports).length := by
  have keeps := keeps_ofReports limit reports
  have count : (ofReports limit reports).recorded.size + (ofReports limit reports).suppressed = reports.length :=
    keeps.total
  rw [← keeps.size]
  omega

end Diagnostics

namespace Reporting

variable {α β : Type} {x : Reporting α} {f : α → Reporting β} {a : α} {ds : List Diagnostic}

/-- The result of a check when nothing was reported before it and nothing is left out. -/
def value (x : Reporting α) : α := (x.run (.withLimit none)).1

/-- The reports of a check when nothing was reported before it and nothing is left out. -/
def reports (x : Reporting α) : List Diagnostic := (x.run (.withLimit none)).2.recorded.toList

/-- What a check gives: its result, and its reports. -/
structure Gives (x : Reporting α) (a : α) (ds : List Diagnostic) : Prop where
  value : x.value = a
  reports : x.reports = ds

theorem gives_self (x : Reporting α) : x.Gives x.value x.reports := ⟨rfl, rfl⟩

/-- A check that gives the same whatever it is handed, under any limit. -/
class Steady (x : Reporting α) : Prop where
  run_eq : ∀ ds, x.run ds = (x.value, x.reports.foldl Diagnostics.report ds)

/-- A check whose result and reports can be said without the diagnostics gives them. -/
theorem gives_of_run (runs : ∀ before, x.run before = (a, ds.foldl Diagnostics.report before)) : x.Gives a ds where
  value := congrArg Prod.fst (runs _)
  reports := by
    rw [reports, runs]
    exact Diagnostics.recorded_ofReports_none ds

theorem Steady.of_run (runs : ∀ before, x.run before = (a, ds.foldl Diagnostics.report before)) : x.Steady where
  run_eq before := by
    have given := gives_of_run runs
    rw [runs, given.value, given.reports]

theorem run_pure (before : Diagnostics) :
    (pure a : Reporting α).run before = (a, ([] : List Diagnostic).foldl Diagnostics.report before) := rfl

theorem run_report (d : Diagnostic) (before : Diagnostics) :
    (report d).run before = ((), [d].foldl Diagnostics.report before) := rfl

theorem run_bind [x.Steady] [∀ a, (f a).Steady] (before : Diagnostics) :
    (x >>= f).run before =
      ((f x.value).value, (x.reports ++ (f x.value).reports).foldl Diagnostics.report before) := by
  calc (x >>= f).run before
    _ = (f (x.run before).1).run (x.run before).2 := rfl
    _ = (f x.value).run (x.reports.foldl Diagnostics.report before) := by rw [Steady.run_eq before]
    _ = _ := by rw [Steady.run_eq, List.foldl_append]

instance (a : α) : Steady (pure a : Reporting α) := .of_run run_pure

instance (d : Diagnostic) : Steady (report d) := .of_run (run_report d)

instance (x : Reporting α) (f : α → Reporting β) [x.Steady] [∀ a, (f a).Steady] : Steady (x >>= f) := .of_run run_bind

instance (c : Prop) [Decidable c] (x y : Reporting α) [x.Steady] [y.Steady] : Steady (if c then x else y) := by
  split <;> infer_instance

instance (holds : Bool) (d : Diagnostic) : Steady (reportUnless holds d) := by
  rw [reportUnless]
  infer_instance

@[simp] theorem value_pure : (pure a : Reporting α).value = a := rfl

@[simp] theorem reports_pure : (pure a : Reporting α).reports = [] := rfl

@[simp] theorem reports_report (d : Diagnostic) : (report d).reports = [d] := rfl

@[simp] theorem value_bind [x.Steady] [∀ a, (f a).Steady] : (x >>= f).value = (f x.value).value :=
  (gives_of_run run_bind).value

@[simp] theorem reports_bind [x.Steady] [∀ a, (f a).Steady] :
    (x >>= f).reports = x.reports ++ (f x.value).reports :=
  (gives_of_run run_bind).reports

/-- Checks in sequence report one after the other. -/
theorem gives_bind [x.Steady] [∀ a, (f a).Steady] {b : β} :
    (x >>= f).Gives b ds ↔ ∃ a ds₁ ds₂, x.Gives a ds₁ ∧ (f a).Gives b ds₂ ∧ ds = ds₁ ++ ds₂ := by
  constructor
  · rintro ⟨rfl, rfl⟩
    rw [value_bind, reports_bind]
    exact ⟨_, _, _, gives_self x, gives_self (f x.value), rfl⟩
  · rintro ⟨a, ds₁, ds₂, ⟨rfl, rfl⟩, ⟨rfl, rfl⟩, rfl⟩
    exact ⟨value_bind, reports_bind⟩

/-- Checks in sequence report nothing when neither of them does. -/
theorem gives_bind_nil [x.Steady] [∀ a, (f a).Steady] {b : β} :
    (x >>= f).Gives b [] ↔ ∃ a, x.Gives a [] ∧ (f a).Gives b [] := by
  rw [gives_bind]
  constructor
  · rintro ⟨a, ds₁, ds₂, hx, hf, nothing⟩
    obtain ⟨rfl, rfl⟩ := List.nil_eq_append_iff.1 nothing
    exact ⟨a, hx, hf⟩
  · rintro ⟨a, hx, hf⟩
    exact ⟨a, [], [], hx, hf, rfl⟩

/-- An expected type is a report unless the types agree, and says so. -/
theorem expect_eq (line : Line) (found expected : Ty) :
    expect line found expected = do
      reportUnless (found.agrees expected) (.mismatch line found expected)
      return found.agrees expected := by
  funext before
  rw [expect, Diagnostics.expect, reportUnless]
  split
  · next agree => rw [agree]; rfl
  · next differ => rw [eq_false_of_ne_true differ]; rfl

instance (line : Line) (found expected : Ty) : Steady (expect line found expected) := by
  rw [expect_eq]
  infer_instance

/-- A steady check under a limit: its reports, as far as the limit goes. -/
theorem run_withLimit (x : Reporting α) [x.Steady] (limit : Option Nat) :
    x.run (.withLimit limit) = (x.value, .ofReports limit x.reports) := Steady.run_eq _

end Reporting

theorem reports_reportUnless_eq_nil_iff {holds : Bool} {d : Diagnostic} :
    (reportUnless holds d).reports = [] ↔ holds = true := by
  cases holds
  · exact ⟨nofun, nofun⟩
  · exact ⟨fun _ => rfl, fun _ => rfl⟩

end Stacklet
