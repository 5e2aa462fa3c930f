import Stacklet.Proofs.Assembly.Discipline
import Stacklet.Proofs.Assembly.Dispatch

/-!
# Code that differs in its switches alone

Two instructions are alike when they are the same, or when both are switches that jump by one offset for
every int and have the same offsets. What one does to a frame the other does too, so that code with alike
instructions runs alike, step for step (`run_eq`). Verification follows offsets without asking for which
int they are, and finds the same depth in both (`verify_alike`).
-/

namespace Stacklet

namespace Instr

/-- Whether an instruction is a switch. -/
def isSwitch : Instr → Bool
  | .tableSwitch .. | .lookupSwitch .. => true
  | _ => false

/-- Instructions that are the same but for the form of a switch. -/
inductive Alike : Instr → Instr → Prop
  | refl (i : Instr) : Alike i i
  | switches {i i' : Instr} : i.isSwitch → i'.isSwitch →
      (∀ key, i.offsetFor? key = i'.offsetFor? key) → (∀ offset, offset ∈ i.offsets ↔ offset ∈ i'.offsets) →
      Alike i i'

/-- What a switch does, in whatever form it is. -/
theorem exec_switch {i : Instr} (h : i.isSwitch) :
    i.exec = do
      let key ← Exec.popInt
      return .jump ((i.offsetFor? key).getD 0) := by
  cases i with
  | tableSwitch | lookupSwitch => rfl
  | _ => cases h

/-- Switches take and leave the same, and control never falls through them. -/
theorem shape_switch {i : Instr} (h : i.isSwitch) :
    i.pops = 1 ∧ i.pushes = 0 ∧ i.fallsThrough = false := by
  cases i with
  | tableSwitch | lookupSwitch => exact ⟨rfl, rfl, rfl⟩
  | _ => cases h

namespace Alike

variable {i i' : Instr}

theorem symm (h : Alike i i') : Alike i' i := by
  cases h with
  | refl => exact .refl _
  | switches hi hi' same offsets =>
    exact .switches hi' hi (fun key => (same key).symm) fun offset => (offsets offset).symm

theorem exec_eq (h : Alike i i') : i.exec = i'.exec := by
  cases h with
  | refl => rfl
  | switches hi hi' same =>
    rw [exec_switch hi, exec_switch hi']
    simp only [same]

theorem shape_eq (h : Alike i i') :
    i.pops = i'.pops ∧ i.pushes = i'.pushes ∧ i.fallsThrough = i'.fallsThrough := by
  cases h with
  | refl => exact ⟨rfl, rfl, rfl⟩
  | switches hi hi' =>
    obtain ⟨pops, pushes, falls⟩ := shape_switch hi
    obtain ⟨pops', pushes', falls'⟩ := shape_switch hi'
    exact ⟨pops.trans pops'.symm, pushes.trans pushes'.symm, falls.trans falls'.symm⟩

theorem mem_offsets (h : Alike i i') {offset : Int32} : offset ∈ i.offsets ↔ offset ∈ i'.offsets := by
  cases h with
  | refl => exact Iff.rfl
  | switches _ _ _ offsets => exact offsets offset

theorem eq_or_switches (h : Alike i i') : i = i' ∨ i.isSwitch ∧ i'.isSwitch := by
  cases h with
  | refl => exact .inl rfl
  | switches hi hi' => exact .inr ⟨hi, hi'⟩

end Alike

end Instr

/-- Instructions that are alike at every position. -/
def AllAlike (instrs instrs' : Array Instr) : Prop :=
  ∀ pc : Nat, Option.Rel Instr.Alike instrs[pc]? instrs'[pc]?

namespace AllAlike

variable {instrs instrs' : Array Instr}

theorem symm (h : AllAlike instrs instrs') : AllAlike instrs' instrs := by
  intro pc
  have here := h pc
  generalize instrs[pc]? = o, instrs'[pc]? = o' at here
  cases here with
  | none => exact .none
  | some alike => exact .some alike.symm

theorem get (h : AllAlike instrs instrs') {pc : Nat} {i : Instr} (hi : instrs[pc]? = some i) :
    ∃ i', instrs'[pc]? = some i' ∧ i.Alike i' := by
  have here := h pc
  rw [hi] at here
  generalize instrs'[pc]? = o' at here
  cases here with
  | some alike => exact ⟨_, rfl, alike⟩

theorem size_le (h : AllAlike instrs instrs') : instrs.size ≤ instrs'.size := by
  apply Nat.le_of_not_lt
  intro shorter
  obtain ⟨i', hi', -⟩ := h.get (Array.getElem?_eq_getElem shorter)
  rw [Array.getElem?_eq_none (Nat.le_refl _)] at hi'
  cases hi'

theorem size_eq (h : AllAlike instrs instrs') : instrs.size = instrs'.size :=
  Nat.le_antisymm h.size_le h.symm.size_le

end AllAlike

/-! ## Verification -/

namespace Verify

variable {instrs instrs' : Array Instr}

/-- A consistent assignment is consistent for alike instructions. -/
theorem Consistent.alike {bound : Nat} {depth : Nat → Option Nat} (h : Consistent instrs bound depth)
    (alike : AllAlike instrs instrs') : Consistent instrs' bound depth where
  entry := h.entry
  inside hk := by
    obtain ⟨i, hi⟩ := h.inside hk
    obtain ⟨i', hi', -⟩ := alike.get hi
    exact ⟨i', hi'⟩
  pops hk hi' := by
    obtain ⟨i, hi, same⟩ := alike.symm.get hi'
    rw [same.shape_eq.1]
    exact h.pops hk hi
  before := h.before
  after hk hi' := by
    obtain ⟨i, hi, same⟩ := alike.symm.get hi'
    obtain ⟨pops, pushes, -⟩ := same.shape_eq
    rw [pops, pushes]
    exact h.after hk hi
  jump hk hi' mem := by
    obtain ⟨i, hi, same⟩ := alike.symm.get hi'
    obtain ⟨pops, pushes, -⟩ := same.shape_eq
    rw [pops, pushes]
    exact h.jump hk hi (same.mem_offsets.1 mem)
  next hk hi' falls := by
    obtain ⟨i, hi, same⟩ := alike.symm.get hi'
    obtain ⟨pops, pushes, falls'⟩ := same.shape_eq
    rw [pops, pushes]
    exact h.next hk hi (falls'.symm.trans falls)

/-- The greatest depth of alike instructions is no greater. -/
theorem exists_peak_le {m : Nat} (alike : AllAlike instrs instrs') (h : peak instrs = .ok m) :
    ∃ m' ≤ m, peak instrs' = .ok m' := by
  by_cases nonempty : 0 < instrs.size
  · obtain ⟨depth, consistent⟩ := exists_consistent nonempty h
    exact peak_eq_ok (consistent.alike alike)
  · have empty : ¬ 0 < instrs'.size := by rwa [← alike.size_eq]
    rw [peak, dif_neg empty]
    exact ⟨0, Nat.zero_le m, rfl⟩

theorem peak_alike {m : Nat} (alike : AllAlike instrs instrs') (h : peak instrs = .ok m) :
    peak instrs' = .ok m := by
  obtain ⟨m', le, h'⟩ := exists_peak_le alike h
  obtain ⟨m'', le', h''⟩ := exists_peak_le alike.symm h'
  have same : m'' = m := Except.ok.inj (h''.symm.trans h)
  rw [h', show m' = m by omega]

end Verify

/-- Verification gives a depth when it is the greatest one. -/
theorem verify_of_peak {instrs : Array Instr} {m : UInt16} (h : Verify.peak instrs = .ok m.toNat) :
    verify instrs = .ok m := by
  rw [verify, h]
  simp only [bind, Except.bind]
  rw [if_pos m.toNat_lt, UInt16.ofNat_toNat]
  rfl

/-- Alike instructions verify with the same depth. -/
theorem verify_alike {instrs instrs' : Array Instr} {m : UInt16} (alike : AllAlike instrs instrs')
    (h : verify instrs = .ok m) : verify instrs' = .ok m :=
  verify_of_peak (Verify.peak_alike alike (verify_eq_ok h))

/-! ## Runs -/

/-- Code that is the same but for the form of its switches. -/
structure Code.Alike (code code' : Code) : Prop where
  instrs : AllAlike code.instrs code'.instrs
  maxStack : code.maxStack = code'.maxStack
  maxLocals : code.maxLocals = code'.maxLocals
  fields : code.fields = code'.fields

namespace Code.Alike

variable {code code' : Code} (h : code.Alike code')

include h

/-- Each instruction does the same in alike code. -/
theorem advance_eq (pc : Nat) (f : Frame) : code.advance pc f = code'.advance pc f := by
  have here := h.instrs pc
  unfold Code.advance Frame.step
  rw [h.instrs.size_eq]
  generalize code.instrs[pc]? = o, code'.instrs[pc]? = o' at here
  cases here with
  | none => rfl
  | some alike => simp only [alike.exec_eq]

theorem outcome_eq (value : Option Value) (f : Frame) (steps : Nat) :
    code.outcome value f steps = code'.outcome value f steps := by
  unfold Code.outcome
  rw [h.fields]

theorem runFrom_eq (budget left pc : Nat) (f : Frame) :
    code.runFrom budget left pc f = code'.runFrom budget left pc f := by
  induction left generalizing pc f with
  | zero => rfl
  | succ left ih =>
    rw [Code.runFrom, Code.runFrom, h.advance_eq]
    split
    · rfl
    · exact ih _ _
    · rw [h.outcome_eq]

/-- Alike code runs alike. -/
theorem run_eq (budget : Nat) : code.run budget = code'.run budget := by
  have start : code.start = code'.start := by
    unfold Code.start
    rw [h.maxLocals, h.fields]
  rw [Code.run, Code.run, start]
  exact h.runFrom_eq budget budget 0 code'.start

end Code.Alike

end Stacklet
