import Stacklet.Checking.Program
import Stacklet.Proofs.Typing.CheckedStmt

/-!
# Programs that pass the check

The body of a program that is checked without a report is well formed over the places of its fields and
of the locals that it declares (`check_accepts`). These have the types of the source. As long as there
are slots for all of them, the k-th local has slot k + 1.
-/

namespace Stacklet

namespace Source.Program

/-- The locals that a program declares, each with its name and type. -/
def locals (p : Program) : List (String × Ty) := Stmt.allLocals p.body

/-- The types of the locals that a program declares. -/
def localTypes (p : Program) : List Ty := p.locals.map (·.2)

/-- The names of the locals that a program declares. -/
def localNames (p : Program) : List String := p.locals.map (·.1)

end Source.Program

/-- The locals that a program declares. -/
def Typed.Program.locals (p : Typed.Program) : List LocalVar := Typed.Stmt.allLocals p.body

theorem Diagnostics.hasErrors_report (ds : Diagnostics) (d : Diagnostic) : (ds.report d).hasErrors = true := by
  unfold report hasErrors
  split <;> simp

theorem Diagnostics.hasErrors_foldl {ds : Diagnostics} (reports : List Diagnostic) (h : ds.hasErrors = true) :
    (reports.foldl report ds).hasErrors = true := by
  induction reports generalizing ds with
  | nil => exact h
  | cons d reports ih => exact ih (hasErrors_report ds d)

namespace Source.Program

/-- A program passes the check exactly if there is nothing to report, whatever the limit. -/
theorem isOk_analyze_iff {p : Program} {limit : Option Nat} :
    (p.analyze limit).isOk ↔ p.check.reports = [] := by
  rw [analyze_eq]
  change (!(Diagnostics.ofReports limit p.check.reports).hasErrors) = true ↔ _
  cases p.check.reports with
  | nil => exact ⟨fun _ => rfl, fun _ => rfl⟩
  | cons d rest =>
    rw [Diagnostics.ofReports, List.foldl_cons,
      Diagnostics.hasErrors_foldl rest (Diagnostics.hasErrors_report _ d)]
    exact ⟨nofun, nofun⟩

/-- The place of the field at a position in the list of fields. -/
def fieldAt (k : Nat) (field : FieldDecl) : FieldRef := ⟨UInt16.ofNat (min k 65535), field.ty⟩

theorem toNat_index_fieldAt (k : Nat) (field : FieldDecl) : (fieldAt k field).index.toNat = min k 65535 := by
  change min k 65535 % 65536 = min k 65535
  omega

/-- Entering fields adds nothing but names for them. -/
theorem enterFields_names (names : Names) (index : Nat) (fields : List FieldDecl) :
    (enterFields names index fields).value.scopes = names.scopes ∧
    (enterFields names index fields).value.nextSlot = names.nextSlot ∧
    ∀ name ref, (enterFields names index fields).value.field? name = some ref →
      names.field? name = some ref ∨
        ∃ k field, fields[k]? = some field ∧ field.name = name ∧ ref = fieldAt (index + k) field := by
  induction fields generalizing names index with
  | nil => exact ⟨rfl, rfl, fun _ _ h => .inl h⟩
  | cons field rest ih =>
    cases added : names.addField? (UInt16.ofNat (min index 65535)) field with
    | none =>
      rw [value_enterFields_taken added]
      obtain ⟨scopes, slot, found⟩ := ih names (index + 1)
      refine ⟨scopes, slot, fun name ref h => ?_⟩
      rcases found name ref h with old | ⟨k, field', hk, hn, rfl⟩
      · exact .inl old
      · exact .inr ⟨k + 1, field', hk, hn, by rw [Nat.add_right_comm]; rfl⟩
    | some names' =>
      rw [enterFields, added]
      obtain ⟨scopes, slot, found⟩ := ih names' (index + 1)
      unfold Names.addField? at added
      split at added
      · cases added
      cases added
      refine ⟨scopes, slot, fun name ref h => ?_⟩
      rcases found name ref h with old | ⟨k, field', hk, hn, rfl⟩
      · rw [Names.field?, Std.TreeMap.getElem?_insert] at old
        split at old
        · next same =>
          cases old
          exact .inr ⟨0, field, rfl, Std.LawfulEqOrd.eq_of_compare same, rfl⟩
        · exact .inl old
      · exact .inr ⟨k + 1, field', hk, hn, by rw [Nat.add_right_comm]; rfl⟩

/-- Where a program starts, its names stand for the fields. -/
theorem standFor_start {p : Program} {stands : String → Place → Prop}
    (fields : ∀ k field, p.fields[k]? = some field → stands field.name (.ofField (fieldAt k field))) :
    (enterFields .empty 0 p.fields).value.StandFor stands := by
  obtain ⟨scopes, -, found⟩ := enterFields_names .empty 0 p.fields
  refine ⟨?_, ?_⟩
  · intro scope mem name var hv
    rw [scopes] at mem
    obtain rfl := List.mem_singleton.1 mem
    rw [show (Names.empty.innermost[name]?) = none from Std.TreeMap.getElem?_emptyc] at hv
    cases hv
  · intro name ref hr
    rcases found name ref hr with old | ⟨k, field, hk, rfl, rfl⟩
    · rw [show Names.empty.field? name = none from Std.TreeMap.getElem?_emptyc] at old
      cases old
    · rw [Nat.zero_add]
      exact fields k field hk

theorem known_start {p : Program} {known : Place → Prop}
    (fields : ∀ k field, p.fields[k]? = some field → known (.ofField (fieldAt k field))) :
    (enterFields .empty 0 p.fields).value.Known known :=
  Names.Known.standFor_iff.1 (standFor_start fields)

/-- A program without a report has a body without one. -/
theorem silent_body {p : Program} (h : p.check.reports = []) :
    ∃ st, Check.Silent (Stmt.checkAll ⟨p.returns, []⟩ p.body)
      ⟨(enterFields .empty 0 p.fields).value, 0⟩ p.check.value.body st ∧
      st.names.nextSlot = p.check.value.maxLocals := by
  rw [reports_check, List.append_eq_nil_iff] at h
  rw [value_check]
  exact ⟨_, ⟨rfl, h.2⟩, rfl⟩

/-- A program checked without a report is well formed over the places of its fields and locals. -/
theorem check_accepts {p : Program} (h : p.check.reports = []) :
    p.check.value.locals.map (·.ty) = p.localTypes ∧
    Numbered 1 p.check.value.locals p.check.value.maxLocals ∧
    ∀ known, (∀ p, known p → p.ty ≠ .any) → (∀ var ∈ p.check.value.locals, known (.ofLocal var)) →
      (∀ k field, p.fields[k]? = some field → known (.ofField (fieldAt k field))) →
      Typed.Stmt.AllWellFormed known ⟨p.returns, []⟩ p.check.value.body := by
  obtain ⟨-, slot, -⟩ := enterFields_names .empty 0 p.fields
  obtain ⟨st, silent, last⟩ := silent_body h
  have accepted := Stmt.checkAll_accepts _ _ silent
  refine ⟨accepted.types, ?_, fun known proper locals fields => ?_⟩
  · have slots := accepted.slots
    rw [slot, last] at slots
    exact slots
  · exact (accepted.places known proper locals (known_start fields) nofun).1

end Source.Program

theorem Names.toNat_slotAfter (slot : UInt16) : (slotAfter slot).toNat = min (slot.toNat + 1) 65535 := by
  have bound := slot.toNat_lt
  unfold slotAfter
  split
  · next last => rw [last]; rfl
  · next other =>
    have ne : slot.toNat ≠ 65535 := fun same => other (UInt16.toNat.inj same)
    rw [UInt16.toNat_add, Nat.mod_eq_of_lt (by change slot.toNat + 1 < 2 ^ 16; omega)]
    change slot.toNat + 1 = _
    omega

/-- Locals have consecutive slots, up to the last one. -/
theorem Numbered.saturates {next next' : UInt16} {vars : List LocalVar} (h : Numbered next vars next') :
    next'.toNat = min (next.toNat + vars.length) 65535 ∧
    ∀ {k : Nat} {var : LocalVar}, vars[k]? = some var → var.slot.toNat = min (next.toNat + k) 65535 := by
  induction vars generalizing next with
  | nil =>
    have same : next' = next := h
    have bound := next.toNat_lt
    refine ⟨?_, fun {k var} hk => ?_⟩
    · rw [same, List.length_nil]
      omega
    · cases hk
  | cons var vars ih =>
    have after := Names.toNat_slotAfter next
    obtain ⟨total, slots⟩ := ih h.2
    refine ⟨by rw [List.length_cons]; omega, fun {k var'} hk => ?_⟩
    cases k with
    | zero =>
      cases hk
      have bound := next.toNat_lt
      rw [h.1]
      omega
    | succ k =>
      have slot := slots hk
      omega

/-- Locals that all find a slot have consecutive ones. -/
theorem Numbered.slots {next next' : UInt16} {vars : List LocalVar} (h : Numbered next vars next')
    (room : next.toNat + vars.length ≤ 65535) :
    next'.toNat = next.toNat + vars.length ∧
    ∀ {k : Nat} {var : LocalVar}, vars[k]? = some var → var.slot.toNat = next.toNat + k := by
  obtain ⟨total, slots⟩ := h.saturates
  refine ⟨by omega, fun {k var} hk => ?_⟩
  have slot := slots hk
  have inside := (List.getElem?_eq_some_iff.1 hk).1
  omega

/-- The locals of an accepted program take the slots from 1 on, and its code has room for them. -/
theorem Source.Program.check_slots {p : Source.Program} (accepted : p.check.reports = [])
    (locals : p.localTypes.length ≤ 65534) :
    p.check.value.maxLocals.toNat = p.check.value.locals.length + 1 ∧
    ∀ k var, p.check.value.locals[k]? = some var → var.slot.toNat = k + 1 := by
  obtain ⟨types, slots, -⟩ := check_accepts accepted
  have count : p.check.value.locals.length = p.localTypes.length := by rw [← types, List.length_map]
  have room : (1 : UInt16).toNat + p.check.value.locals.length ≤ 65535 := by
    rw [count]
    exact Nat.add_le_add_left locals 1
  obtain ⟨total, numbered⟩ := slots.slots room
  refine ⟨total.trans (Nat.add_comm 1 _), fun k var hk => ?_⟩
  exact (numbered hk).trans (Nat.add_comm 1 k)

end Stacklet
