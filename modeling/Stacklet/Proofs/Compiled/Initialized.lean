import Stacklet.Proofs.Compiled.Soundness
import Stacklet.Proofs.Evaluation.Initialized
import Stacklet.Proofs.Machine.Locals

/-!
# Compiled code reads no local before it is written

Where every local of a program is initialized in its declaration, and declared where control has to pass, the
evaluation of the program never comes to a local without a value. Its code goes where evaluation goes, so
that on every way to an instruction that reads a local there is one that stores to it (`run_initialized`).
-/

namespace Stacklet

/-- A settled program never halts for a local that is not written. -/
theorem Typed.Program.exec_ne_uninitialized {p : Typed.Program} (settled : Stmt.AllSettled [] p.body)
    (inside : ∀ var ∈ p.locals, var.slot.toNat < p.start.locals.size) (fuel : Nat) (slot : UInt16) :
    p.exec fuel ≠ .error (.uninitialized slot) := by
  have holds : p.start.Holds p.start.locals.size [] := ⟨rfl, nofun⟩
  have safe : Eval.Safe p.start.locals.size [] (Stmt.execAll fuel p.body >>= ending) fun _ => [] := by
    refine (Stmt.execAll_safe fuel [] p.body settled inside).keeps.bind fun exit => ?_
    cases exit <;> exact Eval.safe_pure (List.Subset.refl _)
  rw [exec_eq]
  exact (safe p.start holds).1 slot

namespace Source.Program

variable {p : Program} {options : Options} {code : Code} (localTypes : ∀ ty ∈ p.localTypes, ty ≠ .any)
  (fieldTypes : ∀ field ∈ p.fields, field.ty ≠ .any) (locals : p.localTypes.length ≤ 65534)
  (fields : p.fields.length ≤ 65536) (initialized : p.initializes) (compiled : p.compile options = .ok code)

include localTypes fieldTypes locals initialized in
/-- An accepted program that initializes its locals never halts for one that is not written. -/
theorem check_exec_ne_uninitialized (accepted : p.check.reports = []) (fuel : Nat) (slot : UInt16) :
    p.check.value.exec fuel ≠ .error (.uninitialized slot) := by
  have settled := check_settled accepted localTypes fieldTypes initialized
  obtain ⟨-, slots⟩ := check_slots accepted locals
  refine Typed.Program.exec_ne_uninitialized settled (fun var mem => ?_) fuel slot
  obtain ⟨k, hk⟩ := List.mem_iff_getElem?.1 mem
  rw [slots k var hk, (fits_start accepted locals).size, Typed.Program.layout, List.length_map]
  exact Nat.succ_lt_succ (List.getElem?_eq_some_iff.1 hk).1

include localTypes fieldTypes locals fields initialized compiled

/-- Wherever a run comes to, the instruction there fails for nothing but a division by zero. -/
theorem advance_initialized {pc : Nat} {f : Frame} {e : RunError} (reached : code.Reaches pc f)
    (failed : code.advance pc f = .error e) : e = .fault .divisionByZero := by
  obtain ⟨accepted, -⟩ := compile_eq_ok compiled
  obtain ⟨-, ⟨pc', f', goes⟩ | ⟨fuel, value, f', ends, -⟩ | ⟨fuel, halt, fault, fails, same, halts⟩⟩ :=
    reached_of_compile localTypes fieldTypes locals fields compiled reached
  · rw [goes] at failed
    cases failed
  · rw [ends] at failed
    cases failed
  · rw [fails] at failed
    cases failed
    cases halt with
    | divisionByZero => cases same; rfl
    | uninitialized slot =>
      exact absurd halts (check_exec_ne_uninitialized localTypes fieldTypes locals initialized accepted fuel slot)
    | outOfFuel => cases same

/-- The local that an instruction reads has a value whenever a run comes there, and control passed a `store`
to it before. -/
theorem read_initialized {n pc : Nat} {f : Frame} {instr : Instr} {slot : UInt16}
    (steps : code.Steps n 0 code.start pc f) (found : code.instrs[pc]? = some instr)
    (reads : instr.reads = some slot) :
    f.Written slot.toNat ∧ ∃ m < n, ∃ pc₁ f₁ store, code.Steps m 0 code.start pc₁ f₁ ∧
      code.instrs[pc₁]? = some store ∧ store.stores = some slot := by
  have reached : code.Reaches pc f := ⟨n, steps⟩
  obtain ⟨v, held, notRef⟩ | ⟨fault, fails, other⟩ := Instr.exec_reads reads f
  · have written : f.Written slot.toNat := ⟨v, held⟩
    refine ⟨written, ?_⟩
    -- Slot 0 keeps the receiver, which is never read as a local.
    have notReceiver : slot.toNat ≠ 0 := by
      intro zero
      have receiver := (admits_of_reaches localTypes fieldTypes locals fields compiled reached).receiver
      rw [zero] at held
      cases receiver.symm.trans held
      exact notRef rfl
    rcases steps.stored written with atStart | ⟨m, less, pc₁, f₁, store, slot', before, found', stores, same⟩
    · exact absurd atStart (Code.not_written_start notReceiver)
    · rw [UInt16.toNat_inj.1 same] at stores
      exact ⟨m, less, pc₁, f₁, store, before, found', stores⟩
  · have failed := advance_initialized localTypes fieldTypes locals fields initialized compiled reached
      (Code.advance_of_fault found fails)
    cases failed
    exact absurd rfl other

/-- Compiled code of a program that initializes its locals never fails for a local without a value, whatever
its budget: on every way from the start to an instruction that reads a local, control passes a `store` to
it, so that the local has a value there. -/
theorem run_initialized :
    (∀ budget slot, code.run budget ≠ .error (.fault (.uninitialized slot))) ∧
    ∀ n pc f instr slot, code.Steps n 0 code.start pc f → code.instrs[pc]? = some instr →
      instr.reads = some slot → f.Written slot.toNat ∧
        ∃ m < n, ∃ pc₁ f₁ store, code.Steps m 0 code.start pc₁ f₁ ∧
          code.instrs[pc₁]? = some store ∧ store.stores = some slot := by
  refine ⟨fun budget slot failed => ?_, fun n pc f instr slot steps found reads => ?_⟩
  · obtain impossible | ⟨pc, f, reached, fails⟩ := Code.run_eq_error failed
    · cases impossible
    · cases advance_initialized localTypes fieldTypes locals fields initialized compiled reached fails
  · exact read_initialized localTypes fieldTypes locals fields initialized compiled steps found reads

end Source.Program

/-- A program that halves the ints below 6 in turn, each until nothing is left, and ends at a half of 2. It
leaves both loops early, past declarations in them. -/
def halving : Source.Program where
  name := "Halving"
  fields := [⟨"rounds", .int⟩]
  returns := some .int
  body := [
    .forLoop 1 [.declare 1 "i" .int (some (.literal 1 (.int 0)))]
      (some (.binary 1 (.compare .lt) (.var 1 "i") (.literal 1 (.int 6))))
      [.expr 1 (.step 1 .postInc (.var 1 "i"))]
      (some (.block 1 [
        .declare 2 "left" .int (some (.var 2 "i")),
        .whileDo 3 (.literal 3 (.bool true)) (.block 3 [
          .ifElse 4 (.binary 4 (.compare .eq) (.var 4 "left") (.literal 4 (.int 0))) (.breakOut 4) none,
          .declare 5 "half" .int (some (.binary 5 (.arith .div) (.var 5 "left") (.literal 5 (.int 2)))),
          .expr 6 (.assign 6 (.var 6 "left") (.var 6 "half")),
          .ifElse 7 (.binary 7 (.compare .eq) (.var 7 "half") (.literal 7 (.int 1))) (.continueLoop 7) none,
          .ifElse 8 (.binary 8 (.compare .eq) (.var 8 "half") (.literal 8 (.int 2)))
            (.ret 8 (some (.var 8 "i"))) none,
          .expr 9 (.step 9 .preInc (.field 9 "rounds"))])])),
    .declare 12 "none" .int (some (.unary 12 .negate (.literal 12 (.int 1)))),
    .ret 13 (some (.var 13 "none"))]

/-- Whichever way it takes, its locals are written before they are read. -/
theorem halving_initialized :
    ∃ code, halving.compile ⟨none, false, 0.5, 0⟩ = .ok code ∧
      (∀ budget slot, code.run budget ≠ .error (.fault (.uninitialized slot))) ∧
      ∀ n pc f instr slot, code.Steps n 0 code.start pc f → code.instrs[pc]? = some instr →
        instr.reads = some slot → f.Written slot.toNat ∧
          ∃ m < n, ∃ pc₁ f₁ store, code.Steps m 0 code.start pc₁ f₁ ∧
            code.instrs[pc₁]? = some store ∧ store.stores = some slot := by
  have compiles : ∃ code, halving.compile ⟨none, false, 0.5, 0⟩ = .ok code := ⟨_, rfl⟩
  obtain ⟨code, compiled⟩ := compiles
  exact ⟨code, compiled, Source.Program.run_initialized (p := halving) (by decide) (by decide) (by decide)
    (by decide) (by decide) compiled⟩

end Stacklet
