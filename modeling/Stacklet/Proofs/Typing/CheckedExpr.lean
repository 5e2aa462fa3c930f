import Stacklet.Proofs.Typing.Steady
import Stacklet.Proofs.Typing.WellFormed

/-!
# Expressions that pass the check

An expression that is checked without a report is well typed over the places that the names in scope
stand for (`check_wellTyped`).
-/

namespace Stacklet

theorem Names.closeScope_eq {names : Names} {scope : Scope} {outer : List Scope}
    (h : names.outer = scope :: outer) :
    names.closeScope = ⟨names.fields, scope, outer, names.nextSlot⟩ := by
  rw [closeScope, h]

theorem Names.declare?_eq_some {names names' : Names} {name : String} {ty : Ty} {var : LocalVar}
    (h : names.declare? name ty = some (var, names')) :
    var = ⟨names.nextSlot, ty⟩ ∧
      names' = ⟨names.fields, names.innermost.insert name ⟨names.nextSlot, ty⟩, names.outer,
        slotAfter names.nextSlot⟩ := by
  unfold declare? at h
  split at h
  · cases h
  · cases h
    exact ⟨rfl, rfl⟩

/-- Names that stand for places as a relation allows. -/
structure Names.StandFor (names : Names) (stands : String → Place → Prop) : Prop where
  locals : ∀ scope ∈ names.scopes, ∀ {name : String} {var : LocalVar}, scope[name]? = some var →
    stands name (.ofLocal var)
  fields : ∀ {name : String} {field : FieldRef}, names.field? name = some field →
    stands name (.ofField field)

namespace Names.StandFor

variable {stands : String → Place → Prop} {names : Names}

theorem lookup (h : names.StandFor stands) {name : String} {p : Place} (hp : names.lookup? name = some p) :
    stands name p := by
  unfold lookup? at hp
  split at hp
  · next var hv =>
    cases hp
    obtain ⟨scope, mem, found⟩ := List.exists_of_findSome?_eq_some hv
    exact h.locals scope mem found
  · obtain ⟨field, hf, rfl⟩ := Option.map_eq_some_iff.1 hp
    exact h.fields hf

theorem openScope (h : names.StandFor stands) : names.openScope.StandFor stands where
  locals scope mem {name var} found := by
    rcases List.mem_cons.1 mem with rfl | mem
    · have nothing : names.openScope.innermost[name]? = none := Std.TreeMap.getElem?_emptyc
      rw [nothing] at found
      cases found
    · exact h.locals scope mem found
  fields := h.fields

theorem closeScope (h : names.StandFor stands) : names.closeScope.StandFor stands := by
  unfold Names.closeScope
  split
  · exact h
  · next scope outer ho =>
    refine ⟨fun s mem => h.locals s ?_, h.fields⟩
    rw [scopes, ho]
    exact List.mem_cons_of_mem _ mem

theorem declare (h : names.StandFor stands) {name : String} {ty : Ty} {var : LocalVar} {names' : Names}
    (hd : names.declare? name ty = some (var, names')) (hv : stands name (.ofLocal var)) :
    names'.StandFor stands := by
  obtain ⟨rfl, rfl⟩ := Names.declare?_eq_some hd
  refine ⟨fun scope mem {name' var'} found => ?_, h.fields⟩
  rcases List.mem_cons.1 mem with rfl | mem
  · rw [Std.TreeMap.getElem?_insert] at found
    split at found
    · next same =>
      cases found
      rw [← Std.LawfulEqOrd.eq_of_compare same]
      exact hv
    · exact h.locals _ List.mem_cons_self found
  · exact h.locals scope (List.mem_cons_of_mem _ mem) found

end Names.StandFor

/-- All places that names stand for are known. -/
structure Names.Known (known : Place → Prop) (names : Names) : Prop where
  locals : ∀ scope ∈ names.scopes, ∀ {name : String} {var : LocalVar}, scope[name]? = some var →
    known (.ofLocal var)
  fields : ∀ {name : String} {field : FieldRef}, names.field? name = some field →
    known (.ofField field)

namespace Names.Known

variable {known : Place → Prop} {names : Names}

theorem standFor_iff : names.StandFor (fun _ => known) ↔ names.Known known :=
  ⟨fun h => ⟨h.locals, h.fields⟩, fun h => ⟨h.locals, h.fields⟩⟩

theorem lookup (h : names.Known known) {name : String} {p : Place} (hp : names.lookup? name = some p) :
    known p :=
  (standFor_iff.2 h).lookup hp

theorem openScope (h : names.Known known) : names.openScope.Known known :=
  standFor_iff.1 (standFor_iff.2 h).openScope

theorem closeScope (h : names.Known known) : names.closeScope.Known known :=
  standFor_iff.1 (standFor_iff.2 h).closeScope

theorem declare (h : names.Known known) {name : String} {ty : Ty} {var : LocalVar} {names' : Names}
    (hd : names.declare? name ty = some (var, names')) (hv : known (.ofLocal var)) :
    names'.Known known :=
  standFor_iff.1 ((standFor_iff.2 h).declare hd hv)

end Names.Known

namespace Typed.Expr

variable {known : Place → Prop}

theorem checkNegate_wellTyped {line : Line} {e : Expr} (he : e.WellTyped known) (proper : e.ty ≠ .any)
    (h : (checkNegate line e).reports = []) : (checkNegate line e).value.WellTyped known := by
  unfold checkNegate at h ⊢
  rw [if_neg proper] at h ⊢
  cases hk : e.ty.kind? with
  | none => rw [hk] at h; cases h
  | some kind =>
    have hty : e.ty = kind.ty := by cases hte : e.ty <;> rw [hte] at hk <;> cases hk <;> rfl
    exact ⟨he, hty.symm, by rw [Ty.isNumeric, kind.kind?_ty]; rfl⟩

theorem checkNot_wellTyped {line : Line} {e : Expr} (he : e.WellTyped known) (proper : e.ty ≠ .any)
    (h : (checkNot line e).reports = []) : (checkNot line e).value.WellTyped known := by
  unfold checkNot at h ⊢
  cases hty : e.ty with
  | boolean => exact ⟨he, hty, rfl⟩
  | any => exact absurd hty proper
  | int | long | double => rw [hty] at h; cases h

theorem checkStep_wellTyped {line : Line} {op : StepOp} {p : Place} (hp : known p) (proper : p.ty ≠ .any)
    (h : (checkStep line op p).reports = []) : (checkStep line op p).value.WellTyped known := by
  unfold checkStep at h ⊢
  rw [if_neg proper] at h ⊢
  split at h
  · next numeric =>
    rw [if_pos numeric]
    exact ⟨hp, rfl, numeric⟩
  · cases h

theorem checkBinary_wellTyped {line : Line} {op : BinaryOp} {l r : Expr} (hl : l.WellTyped known)
    (hr : r.WellTyped known) (properL : l.ty ≠ .any) (properR : r.ty ≠ .any)
    (h : (checkBinary line op l r).reports = []) :
    (checkBinary line op l r).value.WellTyped known := by
  unfold checkBinary at h ⊢
  rw [if_neg (by simp [properL, properR])] at h ⊢
  cases result : op.resultType? l.ty r.ty with
  | none => rw [result] at h; cases h
  | some ty => exact ⟨hl, hr, result⟩

/-- Types that agree are equal, the wildcard apart. -/
theorem eq_of_agrees {t u : Ty} (h : t.agrees u) (ht : t ≠ .any) (hu : u ≠ .any) : t = u := by
  simpa [Ty.agrees, ht, hu] using h

theorem checkAssign_wellTyped {line : Line} {p : Place} {e : Expr} (hp : known p)
    (he : e.WellTyped known) (properP : p.ty ≠ .any) (properE : e.ty ≠ .any)
    (h : (checkAssign line p e).reports = []) : (checkAssign line p e).value.WellTyped known := by
  rw [checkAssign_eq] at h ⊢
  split at h
  · next same =>
    rw [if_pos same]
    exact ⟨hp, he, eq_of_agrees same properE properP, rfl⟩
  · cases h

end Typed.Expr

namespace Source.Expr

variable {known : Place → Prop} {names : Names}

theorem resolveName_known (hn : names.Known known) {line : Line} {name : String}
    (h : (resolveName names line name).reports = []) :
    ∃ p, (resolveName names line name).value = some p ∧ known p := by
  unfold resolveName at h ⊢
  cases hp : names.lookup? name with
  | none => rw [hp] at h; cases h
  | some p => exact ⟨p, rfl, hn.lookup hp⟩

theorem resolveField_known (hn : names.Known known) {line : Line} {name : String}
    (h : (resolveField names line name).reports = []) :
    ∃ p, (resolveField names line name).value = some p ∧ known p := by
  unfold resolveField at h ⊢
  cases hf : names.field? name with
  | none => rw [hf] at h; cases h
  | some field => exact ⟨_, rfl, hn.fields hf⟩

theorem resolvePlace_known (hn : names.Known known) {role : String} {operand : Expr}
    {checked : Reporting Typed.Expr} [checked.Steady] (h : (resolvePlace names role operand checked).reports = []) :
    ∃ p, (resolvePlace names role operand checked).value = some p ∧ known p := by
  cases operand with
  | var line name => exact resolveName_known hn h
  | field line name => exact resolveField_known hn h
  | _ =>
    simp only [resolvePlace, Reporting.reports_bind, List.append_eq_nil_iff] at h
    cases h.2.1

/-- An expression checked without a report is well typed. -/
theorem check_wellTyped (proper : ∀ p, known p → p.ty ≠ .any) (hn : names.Known known) {e : Expr}
    (h : (e.check names).reports = []) : (e.check names).value.WellTyped known := by
  induction e with
  | literal line v => exact rfl
  | var line name =>
    simp only [check, Reporting.reports_bind, List.append_eq_nil_iff, Reporting.value_bind] at h ⊢
    obtain ⟨p, hv, hp⟩ := resolveName_known hn h.1
    rw [hv]
    exact ⟨hp, rfl⟩
  | field line name =>
    simp only [check, Reporting.reports_bind, List.append_eq_nil_iff, Reporting.value_bind] at h ⊢
    obtain ⟨p, hv, hp⟩ := resolveField_known hn h.1
    rw [hv]
    exact ⟨hp, rfl⟩
  | unary line op e ih =>
    cases op with
    | negate =>
      simp only [check, Reporting.reports_bind, List.append_eq_nil_iff, Reporting.value_bind] at h ⊢
      have he := ih h.1
      exact Typed.Expr.checkNegate_wellTyped he (he.ne_any proper) h.2
    | not =>
      simp only [check, Reporting.reports_bind, List.append_eq_nil_iff, Reporting.value_bind] at h ⊢
      have he := ih h.1
      exact Typed.Expr.checkNot_wellTyped he (he.ne_any proper) h.2
  | step line op e =>
    simp only [check, Reporting.reports_bind, List.append_eq_nil_iff, Reporting.value_bind] at h ⊢
    obtain ⟨p, hv, hp⟩ := resolvePlace_known hn h.1
    rw [hv] at h ⊢
    exact Typed.Expr.checkStep_wellTyped hp (proper p hp) h.2
  | binary line op l r ihl ihr =>
    simp only [check, Reporting.reports_bind, List.append_eq_nil_iff, Reporting.value_bind] at h ⊢
    have hl := ihl h.1
    have hr := ihr h.2.1
    exact Typed.Expr.checkBinary_wellTyped hl hr (hl.ne_any proper) (hr.ne_any proper) h.2.2
  | assign line target e _ ih =>
    simp only [check, Reporting.reports_bind, List.append_eq_nil_iff, Reporting.value_bind] at h ⊢
    obtain ⟨p, hv, hp⟩ := resolvePlace_known hn h.1
    have he := ih h.2.1
    rw [hv] at h ⊢
    exact Typed.Expr.checkAssign_wellTyped hp he (proper p hp) (he.ne_any proper) h.2.2

end Source.Expr

end Stacklet
