import Stacklet.Proofs.Typing.Steady

/-!
# What a check of statements gives

From a state of the names a check of statements gives a result, reports and a state (`Gives`). Each of the checks
that others are made of has its law, and a check made of them gives what they give in order (`gives_bind`).
-/

namespace Stacklet

namespace CheckState

/-- The state inside a new scope. -/
def opened (st : CheckState) : CheckState := { st with names := st.names.openScope }

/-- The state behind the innermost scope. -/
def closed (st : CheckState) : CheckState := { st with names := st.names.closeScope }

/-- The state after a construct has been numbered. -/
def numbered (st : CheckState) : CheckState := { st with nextTarget := st.nextTarget + 1 }

@[simp] theorem names_opened (st : CheckState) : st.opened.names = st.names.openScope := rfl

@[simp] theorem names_closed (st : CheckState) : st.closed.names = st.names.closeScope := rfl

@[simp] theorem names_numbered (st : CheckState) : st.numbered.names = st.names := rfl

end CheckState

namespace Check

/-- What a check gives from a state: a result, reports, and the state after it. -/
def Gives {α : Type} (x : Check α) (st : CheckState) (a : α) (ds : List Diagnostic) (st' : CheckState) : Prop :=
  Reporting.Gives (x.run st) (a, st') ds

/-- A check that leaves the state as it is. -/
def Reads {α : Type} (x : Check α) (st : CheckState) (a : α) (ds : List Diagnostic) : Prop := Gives x st a ds st

variable {α β : Type} {st st' : CheckState} {ds : List Diagnostic}

theorem gives_bind {x : Check α} {f : α → Check β} [x.Steady] [∀ a, (f a).Steady] {b : β} :
    Gives (x >>= f) st b ds st' ↔
      ∃ a ds₁ st₁ ds₂, Gives x st a ds₁ st₁ ∧ Gives (f a) st₁ b ds₂ st' ∧ ds = ds₁ ++ ds₂ := by
  change Reporting.Gives (x.run st >>= fun p => (f p.1).run p.2) _ _ ↔ _
  rw [Reporting.gives_bind]
  constructor
  · rintro ⟨p, ds₁, ds₂, hx, hf, hds⟩
    exact ⟨p.1, ds₁, p.2, ds₂, hx, hf, hds⟩
  · rintro ⟨a, ds₁, st₁, ds₂, hx, hf, hds⟩
    exact ⟨(a, st₁), ds₁, ds₂, hx, hf, hds⟩

theorem gives_pure {a b : α} : Gives (pure a) st b ds st' ↔ b = a ∧ ds = [] ∧ st' = st := by
  constructor
  · intro h
    cases h.value
    exact ⟨rfl, h.reports.symm, rfl⟩
  · rintro ⟨rfl, rfl, rfl⟩
    exact ⟨rfl, rfl⟩

theorem gives_lift {x : Reporting α} [x.Steady] {a : α} :
    Gives (StateT.lift x) st a ds st' ↔ x.Gives a ds ∧ st' = st := by
  change Reporting.Gives (x >>= fun a => pure (a, st)) _ _ ↔ _
  rw [Reporting.gives_bind]
  constructor
  · rintro ⟨a, ds₁, ds₂, hx, hp, rfl⟩
    cases hp.value
    rw [← hp.reports, Reporting.reports_pure, List.append_nil]
    exact ⟨hx, rfl⟩
  · rintro ⟨hx, rfl⟩
    exact ⟨a, ds, [], hx, ⟨rfl, rfl⟩, (List.append_nil ds).symm⟩

theorem gives_get {s : CheckState} : Gives get st s ds st' ↔ s = st ∧ ds = [] ∧ st' = st := gives_pure

theorem gives_modify {g : CheckState → CheckState} {u : Unit} :
    Gives (modify g) st u ds st' ↔ ds = [] ∧ st' = g st := by
  constructor
  · intro h
    cases h.value
    exact ⟨h.reports.symm, rfl⟩
  · rintro ⟨rfl, rfl⟩
    exact ⟨rfl, rfl⟩

theorem gives_report {d : Diagnostic} {u : Unit} : Gives (report d) st u ds st' ↔ ds = [d] ∧ st' = st := by
  rw [report, gives_lift]
  constructor
  · rintro ⟨h, rfl⟩
    exact ⟨h.reports.symm, rfl⟩
  · rintro ⟨rfl, rfl⟩
    exact ⟨⟨rfl, rfl⟩, rfl⟩

theorem gives_reportUnless {holds : Bool} {d : Diagnostic} {u : Unit} :
    Gives (reportUnless holds d) st u ds st' ↔ ds = (Stacklet.reportUnless holds d).reports ∧ st' = st := by
  rw [reportUnless, gives_lift]
  constructor
  · rintro ⟨h, rfl⟩
    exact ⟨h.reports.symm, rfl⟩
  · rintro ⟨rfl, rfl⟩
    exact ⟨⟨rfl, rfl⟩, rfl⟩

theorem gives_expr {e : Source.Expr} {t : Typed.Expr} :
    Gives (expr e) st t ds st' ↔ (e.check st.names).Gives t ds ∧ st' = st := by
  rw [expr, gives_bind]
  simp only [gives_get, gives_lift]
  constructor
  · rintro ⟨_, _, _, _, ⟨rfl, rfl, rfl⟩, h, rfl⟩
    exact h
  · intro h
    exact ⟨st, [], st, ds, ⟨rfl, rfl, rfl⟩, h, rfl⟩

theorem gives_freshTarget {t : Target} :
    Gives freshTarget st t ds st' ↔ t = st.nextTarget ∧ ds = [] ∧ st' = st.numbered := by
  simp only [freshTarget, gives_bind, gives_get, gives_modify, gives_pure]
  constructor
  · rintro ⟨_, _, _, _, ⟨rfl, rfl, rfl⟩, ⟨_, _, _, _, ⟨rfl, rfl⟩, ⟨rfl, rfl, rfl⟩, rfl⟩, rfl⟩
    exact ⟨rfl, rfl, rfl⟩
  · rintro ⟨rfl, rfl, rfl⟩
    exact ⟨st, [], st, [], ⟨rfl, rfl, rfl⟩, ⟨(), [], _, [], ⟨rfl, rfl⟩, ⟨rfl, rfl, rfl⟩, rfl⟩, rfl⟩

theorem gives_inScope {x : Check α} [x.Steady] {a : α} :
    Gives (inScope x) st a ds st' ↔ ∃ st₁, Gives x st.opened a ds st₁ ∧ st' = st₁.closed := by
  simp only [inScope, gives_bind, gives_modify, gives_pure]
  constructor
  · rintro ⟨_, _, _, _, ⟨rfl, rfl⟩, ⟨a, ds₁, st₁, _, hx, ⟨_, _, _, _, ⟨rfl, rfl⟩, ⟨rfl, rfl, rfl⟩, rfl⟩, rfl⟩,
      rfl⟩
    rw [List.append_nil, List.append_nil, List.nil_append]
    exact ⟨st₁, hx, rfl⟩
  · rintro ⟨st₁, hx, rfl⟩
    exact ⟨(), [], st.opened, ds, ⟨rfl, rfl⟩,
      ⟨a, ds, st₁, [], hx, ⟨(), [], _, [], ⟨rfl, rfl⟩, ⟨rfl, rfl, rfl⟩, rfl⟩, (List.append_nil _).symm⟩, rfl⟩

/-! The checks of expressions leave the state as it is. -/

theorem reads_expr {e : Source.Expr} {t : Typed.Expr} : Reads (expr e) st t ds ↔ (e.check st.names).Gives t ds := by
  rw [Reads, gives_expr]
  exact and_iff_left rfl

/-- The check of an expression and of one condition on its result. -/
theorem gives_expected {e : Source.Expr} {holds : Typed.Expr → Bool} {d : Typed.Expr → Diagnostic}
    {t : Typed.Expr} :
    Gives (do let t ← expr e; reportUnless (holds t) (d t); return t) st t ds st' ↔
      (∃ ds₁, (e.check st.names).Gives t ds₁ ∧ ds = ds₁ ++ (Stacklet.reportUnless (holds t) (d t)).reports) ∧
      st' = st := by
  simp only [gives_bind, gives_expr, gives_reportUnless, gives_pure]
  constructor
  · rintro ⟨t, ds₁, _, _, ⟨he, rfl⟩, ⟨_, _, _, _, ⟨rfl, rfl⟩, ⟨rfl, rfl, rfl⟩, rfl⟩, rfl⟩
    exact ⟨⟨ds₁, he, by rw [List.append_nil]⟩, rfl⟩
  · rintro ⟨⟨ds₁, he, rfl⟩, rfl⟩
    exact ⟨t, ds₁, _, _, ⟨he, rfl⟩, ⟨(), _, _, [], ⟨rfl, rfl⟩, ⟨rfl, rfl, rfl⟩, rfl⟩, by rw [List.append_nil]⟩

theorem reads_condition {construct : String} {e : Source.Expr} {t : Typed.Expr} :
    Reads (condition construct e) st t ds ↔ ∃ ds₁, (e.check st.names).Gives t ds₁ ∧
      ds = ds₁ ++ (Stacklet.reportUnless (t.ty.agrees .boolean) (.badCondition t.line construct t.ty)).reports := by
  rw [Reads, condition, gives_expected]
  exact and_iff_left rfl

theorem reads_initializer {ty : Ty} {e : Source.Expr} {t : Typed.Expr} :
    Reads (initializer ty e) st t ds ↔ ∃ ds₁, (e.check st.names).Gives t ds₁ ∧
      ds = ds₁ ++ (Stacklet.reportUnless (t.ty.agrees ty) (.mismatch t.line t.ty ty)).reports := by
  rw [Reads, initializer_eq, gives_expected]
  exact and_iff_left rfl

theorem gives_condition {construct : String} {e : Source.Expr} {t : Typed.Expr} :
    Gives (condition construct e) st t ds st' ↔ Reads (condition construct e) st t ds ∧ st' = st := by
  rw [Reads, condition, gives_expected, gives_expected]
  exact and_congr_left fun _ => (and_iff_left rfl).symm

theorem gives_initializer {ty : Ty} {e : Source.Expr} {t : Typed.Expr} :
    Gives (initializer ty e) st t ds st' ↔ Reads (initializer ty e) st t ds ∧ st' = st := by
  rw [Reads, initializer_eq, gives_expected, gives_expected]
  exact and_congr_left fun _ => (and_iff_left rfl).symm

theorem gives_optional {check : Source.Expr → Check Typed.Expr} [∀ e, (check e).Steady]
    (reads : ∀ {e t ds st st'}, Gives (check e) st t ds st' → st' = st) {e : Option Source.Expr}
    {t : Option Typed.Expr} :
    Gives (optional check e) st t ds st' ↔ Reads (optional check e) st t ds ∧ st' = st := by
  refine ⟨fun h => ?_, fun h => h.2 ▸ h.1⟩
  have same : st' = st := by
    cases e with
    | none => exact (gives_pure.1 h).2.2
    | some e =>
      obtain ⟨_, _, _, _, he, hp, -⟩ := gives_bind.1 h
      rw [(gives_pure.1 hp).2.2, reads he]
  subst same
  exact ⟨h, rfl⟩

theorem gives_result {line : Line} {returns : Option Ty} {value : Option Typed.Expr} {u : Unit} :
    Gives (result line returns value) st u ds st' ↔ Reads (result line returns value) st u ds ∧ st' = st := by
  refine ⟨fun h => ?_, fun h => h.2 ▸ h.1⟩
  have same : st' = st := by
    cases returns with
    | none =>
      cases value with
      | none => exact (gives_pure.1 h).2.2
      | some value => exact (gives_report.1 h).2
    | some ty =>
      cases value with
      | none => exact (gives_report.1 h).2
      | some value => exact (gives_reportUnless.1 h).2
  subst same
  exact ⟨h, rfl⟩

/-! A check that goes on after one of these. -/

theorem gives_bind_pure {x : Check α} [x.Steady] {g : α → β} {b : β} :
    Gives (x >>= fun a => pure (g a)) st b ds st' ↔ ∃ a, Gives x st a ds st' ∧ b = g a := by
  simp only [gives_bind, gives_pure]
  constructor
  · rintro ⟨a, ds₁, st₁, _, hx, ⟨rfl, rfl, rfl⟩, rfl⟩
    rw [List.append_nil]
    exact ⟨a, hx, rfl⟩
  · rintro ⟨a, hx, rfl⟩
    exact ⟨a, ds, st', [], hx, ⟨rfl, rfl, rfl⟩, (List.append_nil ds).symm⟩

theorem gives_freshTarget_bind {f : Target → Check β} [∀ t, (f t).Steady] {b : β} :
    Gives (freshTarget >>= f) st b ds st' ↔ Gives (f st.nextTarget) st.numbered b ds st' := by
  simp only [gives_bind, gives_freshTarget]
  constructor
  · rintro ⟨_, _, _, ds, ⟨rfl, rfl, rfl⟩, hf, rfl⟩
    exact hf
  · intro hf
    exact ⟨_, [], _, ds, ⟨rfl, rfl, rfl⟩, hf, rfl⟩

theorem gives_reportUnless_bind {holds : Bool} {d : Diagnostic} {f : Unit → Check β} [∀ u, (f u).Steady] {b : β} :
    Gives (reportUnless holds d >>= f) st b ds st' ↔
      ∃ ds', Gives (f ()) st b ds' st' ∧ ds = (Stacklet.reportUnless holds d).reports ++ ds' := by
  simp only [gives_bind, gives_reportUnless]
  constructor
  · rintro ⟨_, _, _, ds', ⟨rfl, rfl⟩, hf, rfl⟩
    exact ⟨ds', hf, rfl⟩
  · rintro ⟨ds', hf, rfl⟩
    exact ⟨(), _, st, ds', ⟨rfl, rfl⟩, hf, rfl⟩

/-- The check in front leaves the state as it is. -/
theorem gives_reads_bind {x : Check α} {f : α → Check β} [x.Steady] [∀ a, (f a).Steady] {b : β}
    (h : Gives (x >>= f) st b ds st') (reads : ∀ {a ds st'}, Gives x st a ds st' → st' = st) :
    ∃ a ds₁ ds₂, Reads x st a ds₁ ∧ Gives (f a) st b ds₂ st' ∧ ds = ds₁ ++ ds₂ := by
  obtain ⟨a, ds₁, st₁, ds₂, hx, hf, rfl⟩ := gives_bind.1 h
  obtain rfl := reads hx
  exact ⟨a, ds₁, ds₂, hx, hf, rfl⟩

end Check

end Stacklet
