import Stacklet.Compile
import Stacklet.Proofs.Assembly.Alike
import Stacklet.Proofs.Assembly.Resolved

/-!
# The density of tables does not matter

How full a table has to be decides in which form a switch is assembled, and nothing else. Labels and
offsets do not depend on it, so that calls assemble under every density or under none; what they are
assembled to is alike (`finish_alike`). Hence the density changes neither whether a program compiles nor
what its code does (`compile_minTableDensity`).
-/

namespace Stacklet

theorem Dispatch.isSwitch_instr (dispatch : Dispatch) (offset : Label → Int32) (other : Label) :
    (dispatch.instr offset other).isSwitch = true := by
  cases dispatch <;> rfl

/-- A draft becomes alike instructions under all densities. -/
theorem Draft.instr_alike {d : Draft} (ordered : d.Ordered) (offset : Label → Int32)
    (minDensity minDensity' : Float) :
    (d.instr minDensity offset).Alike (d.instr minDensity' offset) := by
  cases d with
  | plain | jump => exact .refl _
  | switch arms other =>
    apply Instr.Alike.switches
    · exact Dispatch.isSwitch_instr _ _ _
    · exact Dispatch.isSwitch_instr _ _ _
    · intro key
      rw [instr, instr, Dispatch.offsetFor?_instr _ ordered, Dispatch.offsetFor?_instr _ ordered]
    · intro o
      rw [instr, instr, Dispatch.mem_offsets_instr _ ordered, Dispatch.mem_offsets_instr _ ordered]

namespace Assembler

variable {calls : List Call}

theorem linked_alike (calls : List Call) (minDensity minDensity' : Float) :
    AllAlike ((ofCalls calls).linked minDensity).toArray ((ofCalls calls).linked minDensity').toArray := by
  intro pc
  simp only [linked, List.getElem?_toArray, List.getElem?_map, List.getElem?_zipIdx,
    Array.getElem?_toList]
  cases hd : (ofCalls calls).drafts[pc]? with
  | none => exact .none
  | some d => exact .some (d.instr_alike (ordered_ofCalls hd) _ _ _)

/-- Calls that assemble with one density do so with every other, to alike code. -/
theorem finish_alike {minDensity : Float} {verifyStack : Bool} {name : String} {maxLocals : UInt16}
    {fields : List FieldDecl} {code : Code} (minDensity' : Float)
    (h : (ofCalls calls).finish ⟨minDensity, verifyStack⟩ name maxLocals fields = .ok code) :
    ∃ code', (ofCalls calls).finish ⟨minDensity', verifyStack⟩ name maxLocals fields = .ok code' ∧
      code.Alike code' := by
  obtain ⟨assembled, rfl, rfl, rfl, verified⟩ := finish_eq_ok_iff.1 h
  obtain ⟨faultless, located, same⟩ := instrs_eq_ok_iff.1 assembled
  let code' : Code := { code with instrs := ((ofCalls calls).linked minDensity').toArray }
  have alike : AllAlike code.instrs code'.instrs := by
    have all := linked_alike calls minDensity minDensity'
    rwa [← same] at all
  refine ⟨code', finish_eq_ok_iff.2 ⟨?_, rfl, rfl, rfl, ?_⟩, alike, rfl, rfl, rfl⟩
  · exact instrs_eq_ok_iff.2 ⟨faultless, located, rfl⟩
  · cases verifyStack with
    | false => exact verified
    | true => exact verify_alike alike verified

end Assembler

/-- A checked program that compiles with one density does so with every other, to alike code. -/
theorem Typed.Program.compile_alike {p : Typed.Program} {options : Options} {code : Code}
    (density : Float) (h : p.compile options = .ok code) :
    ∃ code', p.compile { options with minTableDensity := density } = .ok code' ∧ code.Alike code' := by
  unfold compile at h ⊢
  simp only at h ⊢
  split at h
  · cases h
  · split at h
    · cases h
    · next finished =>
      cases h
      obtain ⟨code', finished', alike⟩ := Assembler.finish_alike density finished
      exact ⟨code', by simp only [finished'], alike⟩

namespace Source.Program

variable {p : Program} {options : Options} {code : Code}

theorem compile_alike (density : Float) (h : p.compile options = .ok code) :
    ∃ code', p.compile { options with minTableDensity := density } = .ok code' ∧ code.Alike code' := by
  unfold compile at h ⊢
  simp only at h ⊢
  split at h
  · next ok =>
    rw [if_pos ok]
    exact Typed.Program.compile_alike density h
  · cases h

/-- The density of tables decides neither whether a program compiles nor what its code does: codes for two
densities have the same instructions but for the form of switches, the same room for the stack and for
locals, and come with every budget to the same outcome or the same error. -/
theorem compile_minTableDensity (p : Program) (options : Options) (density : Float) :
    ((∃ code, p.compile options = .ok code) ↔
      ∃ code, p.compile { options with minTableDensity := density } = .ok code) ∧
    ∀ code code', p.compile options = .ok code →
      p.compile { options with minTableDensity := density } = .ok code' →
      code.instrs.size = code'.instrs.size ∧
      (∀ (pc : Nat) (i i' : Instr), code.instrs[pc]? = some i → code'.instrs[pc]? = some i' →
        i = i' ∨ i.isSwitch ∧ i'.isSwitch) ∧
      code.maxStack = code'.maxStack ∧ code.maxLocals = code'.maxLocals ∧
      ∀ budget, code.run budget = code'.run budget := by
  refine ⟨⟨?_, ?_⟩, ?_⟩
  · rintro ⟨code, compiled⟩
    obtain ⟨code', compiled', -⟩ := compile_alike density compiled
    exact ⟨code', compiled'⟩
  · rintro ⟨code', compiled'⟩
    obtain ⟨code, compiled, -⟩ := compile_alike options.minTableDensity compiled'
    exact ⟨code, compiled⟩
  · intro code code' compiled compiled'
    obtain ⟨code'', same, alike⟩ := compile_alike density compiled
    obtain rfl : code'' = code' := Except.ok.inj (same.symm.trans compiled')
    refine ⟨alike.instrs.size_eq, fun pc i i' hi hi' => ?_, alike.maxStack, alike.maxLocals, alike.run_eq⟩
    obtain ⟨i'', hi'', alike⟩ := alike.instrs.get hi
    obtain rfl : i'' = i' := Option.some.inj (hi''.symm.trans hi')
    exact alike.eq_or_switches

end Source.Program

/-- A program with two cases that lie apart. -/
def apart : Source.Program where
  name := "Apart"
  fields := [⟨"x", .int⟩]
  returns := none
  body := [
    .switch 1 (.field 1 "x") [
      ⟨[.case (.literal 2 (.int 9))], [.ret 2 none]⟩,
      ⟨[.case (.unary 3 .negate (.literal 3 (.int 0)))], [.breakOut 3]⟩]]

/-- Under a density that is no number it switches by pairs, under zero by a table. -/
theorem apart_interchangeable :
    ∃ code code', apart.compile ⟨none, true, 0.0 / 0.0, 0⟩ = .ok code ∧
      apart.compile ⟨none, true, 0.0, 0⟩ = .ok code' ∧
      code.instrs[2]?.map (·.offsets) = some [3, 2, 1] ∧
      code'.instrs[2]?.map (·.offsets) = some [3, 2, 3, 3, 3, 3, 3, 3, 3, 3, 1] ∧
      code.instrs.size = code'.instrs.size ∧
      (∀ (pc : Nat) (i i' : Instr), code.instrs[pc]? = some i → code'.instrs[pc]? = some i' →
        i = i' ∨ i.isSwitch ∧ i'.isSwitch) ∧
      code.maxStack = code'.maxStack ∧ code.maxLocals = code'.maxLocals ∧
      ∀ budget, code.run budget = code'.run budget := by
  have assembled : Assembler.ofCalls (apart.analyze none).program.lower.run.calls =
      ⟨#[.plain .loadThis, .plain (.getField 0), .switch [(0, ⟨2⟩), (9, ⟨1⟩)] ⟨0⟩, .plain .ret,
        .jump .goto ⟨0⟩, .plain .ret], #[some 5, some 3, some 4], none⟩ := by
    have sorted : Arm.sorted [9, 0] [⟨1⟩, ⟨2⟩] = [(0, ⟨2⟩), (9, ⟨1⟩)] := by
      simp [Arm.sorted, List.mergeSort, List.MergeSort.Internal.splitInTwo, Arm.put]
    rw [← sorted]
    rfl
  have accepted (density : Float) : apart.compile ⟨none, true, density, 0⟩ =
      (apart.analyze none).program.compile ⟨none, true, density, 0⟩ := by
    have passes : (apart.analyze none).isOk = true := by decide +kernel
    simp only [Source.Program.compile, passes, if_true]
  have offsets : (apart.compile ⟨none, true, 0.0 / 0.0, 0⟩).toOption.map (·.instrs[2]?.map (·.offsets)) =
      some (some [3, 2, 1]) := by
    simp only [accepted, Typed.Program.compile, assembled]
    decide +kernel
  have offsets' : (apart.compile ⟨none, true, 0.0, 0⟩).toOption.map (·.instrs[2]?.map (·.offsets)) =
      some (some [3, 2, 3, 3, 3, 3, 3, 3, 3, 3, 1]) := by
    simp only [accepted, Typed.Program.compile, assembled]
    decide +kernel
  cases compiled : apart.compile ⟨none, true, 0.0 / 0.0, 0⟩ with
  | error e => rw [compiled] at offsets; cases offsets
  | ok code =>
    cases compiled' : apart.compile ⟨none, true, 0.0, 0⟩ with
    | error e => rw [compiled'] at offsets'; cases offsets'
    | ok code' =>
      rw [compiled] at offsets
      rw [compiled'] at offsets'
      have same := Source.Program.compile_minTableDensity apart ⟨none, true, 0.0 / 0.0, 0⟩ 0.0
      exact ⟨code, code', rfl, rfl, Option.some.inj offsets, Option.some.inj offsets',
        same.2 code code' compiled compiled'⟩

end Stacklet
