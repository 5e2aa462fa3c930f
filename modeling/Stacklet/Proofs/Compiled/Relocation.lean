import Stacklet.Proofs.Compiled.Relabelled
import Stacklet.Proofs.Lowering.Relocation

/-!
# Compiled code can be relocated

Code that is compiled without verification does not depend on what stands around it: bodies in sequence compile to
the code of the first one, without its closing return, followed by that of the second (`compile_append`).
-/

namespace Stacklet

/-- Compiled code is relocatable. If two bodies compile without verification, then so does the first followed by the
second, to the instructions of the first without the closing return and then those of the second. -/
theorem Typed.Program.compile_append {p p₁ p₂ : Typed.Program} (joined : p.body = p₁.body ++ p₂.body)
    {options : Options} (unverified : options.verifyStack = false) {code₁ code₂ : Code}
    (compiled₁ : p₁.compile options = .ok code₁) (compiled₂ : p₂.compile options = .ok code₂) :
    ∃ front code, code₁.instrs = front.push .ret ∧ p.compile options = .ok code ∧
      code.instrs = front ++ code₂.instrs := by
  obtain ⟨lowered₁, finished₁⟩ := compile_eq_ok_iff.1 compiled₁
  obtain ⟨lowered₂, finished₂⟩ := compile_eq_ok_iff.1 compiled₂
  obtain ⟨first, second, calls₁, calls₂, lowered, calls⟩ := lower_append joined lowered₁ lowered₂
  obtain ⟨assembled₁, -⟩ := Assembler.finish_eq_ok_iff.1 finished₁
  obtain ⟨assembled₂, -⟩ := Assembler.finish_eq_ok_iff.1 finished₂
  -- The closing return of the second body keeps a label that is bound at the seam in front of an instruction.
  have nonempty : 0 < codeSize p₂.lower.run.calls := by
    rw [calls₂, codeSize_append]
    exact Nat.lt_add_left _ Nat.one_pos
  rw [calls₁] at assembled₁
  obtain ⟨front, instrs₁, assembled⟩ := Assembler.instrs_append_shift assembled₁ assembled₂ nonempty
  rw [← calls] at assembled
  refine ⟨front.toArray, ⟨p.name, (front ++ code₂.instrs.toList).toArray, 0, p.maxLocals, p.fields⟩, ?_, ?_, ?_⟩
  · apply Array.toList_inj.1
    rw [instrs₁, Array.toList_push]
  · refine compile_eq_ok_iff.2 ⟨lowered, Assembler.finish_eq_ok_iff.2 ⟨assembled, rfl, rfl, rfl, ?_⟩⟩
    rw [unverified]
    rfl
  · apply Array.toList_inj.1
    rw [Array.toList_append]

/-- A loop that is left at once. Its exit is where the body ends. -/
def poll : Typed.Program where
  name := "Poll"
  fields := [⟨"ready", .boolean⟩]
  returns := none
  maxLocals := 1
  body := [.whileDo 1 0 (.load 1 .boolean (.ofField ⟨0, .boolean⟩)) (.breakOut 2 (some 0))]

/-- A switch that has the number of that loop. -/
def pick : Typed.Program where
  name := "Pick"
  fields := []
  returns := none
  maxLocals := 1
  body := [.switch 1 0 (.literal 1 .int (.int 5)) [
    ⟨[.case 5, .case 4], [.breakOut 2 (some 0)]⟩,
    ⟨[.otherwise], [.ret 3 none]⟩]]

/-- The loop, and then the switch. -/
def pollThenPick : Typed.Program := { poll with body := poll.body ++ pick.body }

theorem pollThenPick_append :
    ∃ code₁ code₂ front code, poll.compile ⟨none, false, 0.5, 0⟩ = .ok code₁ ∧
      pick.compile ⟨none, false, 0.5, 0⟩ = .ok code₂ ∧
      code₁.instrs.toList.map (·.offsets) = [[], [], [3], [2], [-4], []] ∧
      code₂.instrs.toList.map (·.offsets) = [[], [2, 1, 1], [2], [], []] ∧
      code₁.instrs = front.push .ret ∧ pollThenPick.compile ⟨none, false, 0.5, 0⟩ = .ok code ∧
      code.instrs = front ++ code₂.instrs := by
  have first : ∃ code₁, poll.compile ⟨none, false, 0.5, 0⟩ = .ok code₁ ∧
      code₁.instrs.toList.map (·.offsets) = [[], [], [3], [2], [-4], []] := ⟨_, rfl, rfl⟩
  have second : ∃ code₂, pick.compile ⟨none, false, 0.5, 0⟩ = .ok code₂ ∧
      code₂.instrs.toList.map (·.offsets) = [[], [2, 1, 1], [2], [], []] := by
    have drafts : Assembler.ofCalls pick.lower.run.calls =
        ⟨#[.plain (.iconst 5), .switch [(4, ⟨2⟩), (5, ⟨1⟩)] ⟨3⟩, .jump .goto ⟨0⟩, .plain .ret, .plain .ret],
          #[some 4, some 2, some 2, some 3], none⟩ := by
      have sorted : Arm.sorted [5, 4] [⟨1⟩, ⟨2⟩] = [(4, ⟨2⟩), (5, ⟨1⟩)] := by
        simp [Arm.sorted, List.mergeSort, List.MergeSort.Internal.splitInTwo, Arm.put]
      rw [← sorted]
      rfl
    have offsets : ((Assembler.ofCalls pick.lower.run.calls).finish ⟨0.5, false⟩ "Pick" 1 []).toOption.map
        (·.instrs.toList.map (·.offsets)) = some [[], [2, 1, 1], [2], [], []] := by
      rw [drafts]
      decide +kernel
    cases finished : (Assembler.ofCalls pick.lower.run.calls).finish ⟨0.5, false⟩ "Pick" 1 [] with
    | error e => rw [finished] at offsets; cases offsets
    | ok code₂ =>
      rw [finished] at offsets
      exact ⟨code₂, Typed.Program.compile_eq_ok_iff.2 ⟨rfl, finished⟩, Option.some.inj offsets⟩
  obtain ⟨code₁, compiled₁, offsets₁⟩ := first
  obtain ⟨code₂, compiled₂, offsets₂⟩ := second
  obtain ⟨front, code, parts⟩ :=
    Typed.Program.compile_append (p := pollThenPick) rfl rfl compiled₁ compiled₂
  exact ⟨code₁, code₂, front, code, compiled₁, compiled₂, offsets₁, offsets₂, parts⟩

end Stacklet
