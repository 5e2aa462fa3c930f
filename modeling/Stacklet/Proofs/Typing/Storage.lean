import Stacklet.Proofs.Typing.DecidedProgram
import Stacklet.Proofs.Typing.Resolution

/-!
# Variables and their storage

In the tree of a program that passes the check every name is resolved to a local declared by that name or to
the field of that name. Slots and field indices are numbers of 16 bits that stay at the last one when they run
out, and the check does not report it. The locals have slots of their own, all within the room of the program,
exactly if there are at most 65534 of them, and the fields have indices of their own exactly if there are at
most 65536 (`storage_apart`).
-/

namespace Stacklet

/-- A program whose locals have slots of their own, behind that of the receiver and within its room. -/
structure Typed.Program.LocalsApart (p : Typed.Program) : Prop where
  slots : (p.locals.map (·.slot)).Nodup
  range : ∀ var ∈ p.locals, 1 ≤ var.slot ∧ var.slot < p.maxLocals

/-- Consecutive slots are apart exactly if the last of them leaves one free. -/
theorem Numbered.apart_iff {vars : List LocalVar} {next : UInt16} (h : Numbered 1 vars next) :
    ((vars.map (·.slot)).Nodup ∧ ∀ var ∈ vars, 1 ≤ var.slot ∧ var.slot < next) ↔ vars.length ≤ 65534 := by
  obtain ⟨total, slots⟩ := h.saturates
  have one : (1 : UInt16).toNat = 1 := rfl
  constructor
  · rintro ⟨-, range⟩
    -- Otherwise the local at position 65534 has the last slot.
    refine Classical.byContradiction fun many => ?_
    have inside : 65534 < vars.length := by omega
    have slot := slots (List.getElem?_eq_getElem inside)
    have below := UInt16.lt_iff_toNat_lt.1 (range _ (List.getElem_mem inside)).2
    omega
  · intro few
    refine ⟨?_, fun var mem => ?_⟩
    · refine List.pairwise_map.2 (List.pairwise_iff_getElem.2 fun i j hi hj less same => ?_)
      have first := slots (List.getElem?_eq_getElem hi)
      have second := slots (List.getElem?_eq_getElem hj)
      rw [same] at first
      omega
    · obtain ⟨k, hk⟩ := List.mem_iff_getElem?.1 mem
      have inside := (List.getElem?_eq_some_iff.1 hk).1
      have slot := slots hk
      rw [UInt16.le_iff_toNat_le, UInt16.lt_iff_toNat_lt]
      omega

namespace Source.Program

/-- What a name stands for in a program: a local declared by it, or the field of that name. -/
inductive StandsFor (p : Program) : String → Place → Prop
  | ofLocal {name var} : (name, var) ∈ p.localNames.zip p.check.value.locals → StandsFor p name (.ofLocal var)
  | ofField {k field} : p.fields[k]? = some field → StandsFor p field.name (.ofField (fieldAt k field))

/-- A program whose fields have indices of their own, which are those of their declarations. -/
structure FieldsApart (p : Program) : Prop where
  indices : ∀ {name name' : String} {field field' : FieldRef}, p.StandsFor name (.ofField field) →
    p.StandsFor name' (.ofField field') → name ≠ name' → field.index ≠ field'.index
  designated : ∀ {name : String} {field : FieldRef}, p.StandsFor name (.ofField field) →
    ∃ inside : field.index.toNat < p.fields.length, p.fields[field.index.toNat] = ⟨name, field.ty⟩

/-- Fields entered without a report have names of their own. -/
theorem fields_nodup {p : Program} (h : (enterFields .empty 0 p.fields).reports = []) :
    (p.fields.map (·.name)).Nodup := by
  have nothing : Names.empty.Holds [] := by
    refine ⟨fun name ty => ?_, .nil⟩
    rw [show Names.empty.field? name = none from Std.TreeMap.getElem?_emptyc]
    simp
  exact (enterFields_decides nothing 0 p.fields).1.1 h

/-- Fields with names of their own are apart exactly if there is an index for each. -/
theorem fieldsApart_iff {p : Program} (names : (p.fields.map (·.name)).Nodup) :
    p.FieldsApart ↔ p.fields.length ≤ 65536 := by
  constructor
  · intro apart
    -- Otherwise the fields at positions 65535 and 65536 have the last index.
    refine Classical.byContradiction fun many => ?_
    have first : 65535 < p.fields.length := by omega
    have second : 65536 < p.fields.length := by omega
    have other := List.pairwise_iff_getElem.1 (List.pairwise_map.1 names) 65535 65536 first second (by omega)
    exact apart.indices (.ofField (List.getElem?_eq_getElem first)) (.ofField (List.getElem?_eq_getElem second))
      other rfl
  · intro few
    have position {name field} (h : p.StandsFor name (.ofField field)) :
        p.fields[field.index.toNat]? = some ⟨name, field.ty⟩ := by
      obtain ⟨-⟩ | ⟨hk⟩ := h
      next k field =>
      have inside := (List.getElem?_eq_some_iff.1 hk).1
      rw [toNat_index_fieldAt, Nat.min_eq_left (by omega)]
      exact hk
    refine ⟨fun h h' other same => ?_, fun h => List.getElem?_eq_some_iff.1 (position h)⟩
    have here := position h
    rw [same, position h'] at here
    exact other (congrArg FieldDecl.name (Option.some.inj here)).symm

/-- The names of an accepted program are resolved to its locals and fields. These have storage of their own
exactly if there are not too many of them. -/
theorem storage_apart (p : Program) (limit : Option Nat) (accepted : (p.analyze limit).isOk) :
    p.localNames.length = (p.analyze limit).program.locals.length ∧
    (CheckedPiece.all p.body (p.analyze limit).program.body).Resolved p.StandsFor ∧
    ((p.analyze limit).program.LocalsApart ↔ p.localNames.length ≤ 65534) ∧
    (p.FieldsApart ↔ p.fields.length ≤ 65536) := by
  have silent := isOk_analyze_iff.1 accepted
  obtain ⟨-, numbered, -⟩ := check_accepts silent
  obtain ⟨ds, st, checks, reports, -⟩ := p.check_checks
  rw [silent, List.nil_eq_append_iff] at reports
  have binds := checks.binds reports.2
  rw [program_analyze]
  have count : p.localNames.length = p.check.value.locals.length := by
    rw [localNames, List.length_map]
    exact binds.count
  refine ⟨count, ?_, ?_, fieldsApart_iff (fields_nodup reports.1)⟩
  · refine (binds.places (fun d mem => .ofLocal ?_) (standFor_start fun _ _ hk => .ofField hk)).1
    rw [localNames, List.zip_map_left]
    exact List.mem_map_of_mem mem
  · have apart := numbered.apart_iff
    rw [← count] at apart
    exact ⟨fun h => apart.1 ⟨h.slots, h.range⟩, fun h => ⟨(apart.2 h).1, (apart.2 h).2⟩⟩

end Source.Program

/-- The storage of a program in which locals hide a field and each other. -/
theorem shadowed_apart :
    (shadowed.analyze none).isOk = true ∧ shadowed.localNames = ["x", "x", "y", "z"] ∧
      (shadowed.analyze none).program.LocalsApart ∧ shadowed.FieldsApart := by
  have accepted : (shadowed.analyze none).isOk = true := by decide +kernel
  obtain ⟨-, -, locals, fields⟩ := shadowed.storage_apart none accepted
  exact ⟨accepted, rfl, locals.2 (by decide), fields.2 (by decide)⟩

/-- A block with a local of its own. -/
def cell : Source.Stmt := .block 1 [.declare 1 "x" .int none]

/-- A program of such blocks. -/
def crowded (n : Nat) : Source.Program where
  name := "Crowded"
  fields := []
  returns := none
  body := List.replicate n cell

theorem cell_silent (env : Surroundings) (st : CheckState) : Reporting.reports ((cell.check env).run st) = [] := rfl

namespace Source.Program

theorem crowded_locals (n : Nat) : (crowded n).locals = List.replicate n ("x", .int) := by
  change Stmt.allLocals (List.replicate n cell) = _
  induction n with
  | zero => rfl
  | succ n ih => rw [List.replicate_succ, Stmt.allLocals, ih]; rfl

theorem crowded_silent (n : Nat) : (crowded n).check.reports = [] := by
  have body (st : CheckState) : ∃ ts st',
      Check.Gives (Stmt.checkAll ⟨none, []⟩ (List.replicate n cell)) st ts [] st' := by
    induction n generalizing st with
    | zero => exact ⟨[], st, Check.gives_pure.2 ⟨rfl, rfl, rfl⟩⟩
    | succ n ih =>
      have first : Check.Gives (cell.check ⟨none, []⟩) st _ [] _ := ⟨rfl, cell_silent _ st⟩
      obtain ⟨ts, st', rest⟩ := ih _
      exact ⟨_, _, Check.gives_bind.2 ⟨_, _, _, _, first, Check.gives_bind_pure.2 ⟨ts, rest, rfl⟩, rfl⟩⟩
  obtain ⟨ts, st', silent⟩ := body ⟨(enterFields .empty 0 []).value, 0⟩
  rw [reports_check]
  exact silent.reports

/-- Such a program passes the check, but its slots stay at the last one, and so does its room. -/
theorem crowded_last {n : Nat} (many : 65534 ≤ n) :
    ((crowded n).analyze none).isOk = true ∧
    ((crowded n).analyze none).program.maxLocals = 65535 ∧
    ∀ {k : Nat}, 65534 ≤ k → k < n →
      (((crowded n).analyze none).program.locals.map (·.slot))[k]? = some 65535 := by
  obtain ⟨types, numbered, -⟩ := check_accepts (crowded_silent n)
  obtain ⟨total, slots⟩ := numbered.saturates
  have one : (1 : UInt16).toNat = 1 := rfl
  have count : (crowded n).check.value.locals.length = n := by
    rw [← List.length_map, types, localTypes, crowded_locals, List.length_map, List.length_replicate]
  rw [program_analyze]
  refine ⟨isOk_analyze_iff.2 (crowded_silent n), UInt16.toNat.inj ?_, fun {k} beyond inside => ?_⟩
  · change (crowded n).check.value.maxLocals.toNat = 65535
    omega
  · rw [← count] at inside
    have slot := slots (List.getElem?_eq_getElem inside)
    rw [List.getElem?_map, List.getElem?_eq_getElem inside, Option.map_some]
    refine congrArg some (UInt16.toNat.inj ?_)
    change _ = 65535
    omega

end Source.Program

/-- A program with more locals than there are slots passes the check. Its last two locals share a slot, and
there is no room for that slot. -/
theorem crowded_shared :
    ((crowded 65536).analyze none).isOk = true ∧
    ((crowded 65536).analyze none).program.maxLocals = 65535 ∧
    (((crowded 65536).analyze none).program.locals.map (·.slot))[65534]? = some 65535 ∧
    (((crowded 65536).analyze none).program.locals.map (·.slot))[65535]? = some 65535 := by
  obtain ⟨accepted, room, slots⟩ := Source.Program.crowded_last (n := 65536) (by decide)
  exact ⟨accepted, room, slots (by decide) (by decide), slots (by decide) (by decide)⟩

end Stacklet
