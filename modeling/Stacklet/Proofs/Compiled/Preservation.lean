import Stacklet.Compile
import Stacklet.Proofs.Lowering.Total
import Stacklet.Proofs.Simulation.Stmt
import Stacklet.Proofs.Typing.Layout

/-!
# Compiled code does what the program does

Whatever compiles was accepted by the check, and its code holds what lowering has called for. So the code
meets the evaluation of the typed tree (`compile_meets`): it returns what the program returns and leaves
its locals and fields, fails where it fails, and goes on where it goes on (`run_of_exec`).
-/

namespace Stacklet

/-! ## What compiles -/

namespace Source.Program

variable {p : Program} {options : Options} {code : Code}

/-- What compiles was accepted, and is the code of its typed tree. -/
theorem compile_eq_ok (h : p.compile options = .ok code) :
    p.check.reports = [] ∧ p.check.value.compile options = .ok code := by
  unfold compile at h
  simp only at h
  split at h
  · next ok =>
    rw [program_analyze] at h
    exact ⟨isOk_analyze_iff.1 ok, h⟩
  · cases h

end Source.Program

/-- Compiled code holds what lowering has called for, with the locals and fields of the program. -/
theorem Typed.Program.compile_placed {p : Typed.Program} {options : Options} {code : Code}
    (h : p.compile options = .ok code) :
    ∃ position, Placed code.instrs position 0 p.lower.run.calls ∧ code.maxLocals = p.maxLocals ∧
      code.fields = p.fields := by
  unfold compile at h
  simp only at h
  split at h
  · cases h
  · split at h
    · cases h
    · next finished =>
      cases h
      exact ⟨_, Assembler.finish_placed finished⟩

namespace Source.Program

variable {p : Program} {options : Options} {code : Code} (localTypes : ∀ ty ∈ p.localTypes, ty ≠ .any)
  (fieldTypes : ∀ field ∈ p.fields, field.ty ≠ .any) (locals : p.localTypes.length ≤ 65534)
  (fields : p.fields.length ≤ 65536) (compiled : p.compile options = .ok code)

include localTypes fieldTypes locals fields compiled

/-- Compiled code meets the evaluation of its program. -/
theorem compile_meets (fuel : Nat) :
    Meets code p.check.value.layout.Fits fuel ⟨0, [], p.check.value.start⟩ (p.check.value.exec fuel) := by
  obtain ⟨accepted, assembled⟩ := compile_eq_ok compiled
  have wf := wellFormed_layout accepted localTypes fieldTypes locals fields
  obtain ⟨cs, s, lowers, run⟩ := Typed.Program.lower_lowers (p := p.check.value) wf
  obtain ⟨position, placed, -, -⟩ := Typed.Program.compile_placed assembled
  rw [run] at placed
  exact lowers.meets_exec wf placed (fits_start accepted locals)

omit localTypes fieldTypes locals fields in
theorem compile_start : code.start = Point.frame ⟨0, [], p.check.value.start⟩ 0 := by
  obtain ⟨-, assembled⟩ := compile_eq_ok compiled
  obtain ⟨-, -, maxLocals, fields⟩ := Typed.Program.compile_placed assembled
  unfold Code.start
  rw [maxLocals, fields]
  rfl

omit localTypes fieldTypes locals fields in
theorem compile_fields : code.fields = p.fields := by
  obtain ⟨-, assembled⟩ := compile_eq_ok compiled
  obtain ⟨-, -, -, fields⟩ := Typed.Program.compile_placed assembled
  exact fields

/-- Compiled code does what the program does. If the program ends, so does every run with budget enough,
with the value that the program gives back and the locals and fields that it leaves. If the program
fails, so does every run with budget enough, for the same reason. If the program never ends, no budget is
enough. -/
theorem run_of_exec :
    (∀ fuel value σ, p.check.value.exec fuel = .ok (value, σ) →
      ∃ enough o, (∀ budget, enough ≤ budget → code.run budget = .ok o) ∧ o.value = value ∧
        o.locals = σ.locals ∧ o.fields = (p.fields.map (·.name)).zip σ.fields.toList) ∧
    (∀ fuel halt fault, p.check.value.exec fuel = .error halt → halt.fault? = some fault →
      ∃ enough, ∀ budget, enough ≤ budget → code.run budget = .error (.fault fault)) ∧
    ((∀ fuel, p.check.value.exec fuel = .error .outOfFuel) →
      ∀ budget, code.run budget = .error (.outOfBudget budget)) := by
  have meets := compile_meets localTypes fieldTypes locals fields compiled
  have start := compile_start compiled
  refine ⟨fun fuel value σ result => ?_, fun fuel halt fault result same => ?_, fun result budget => ?_⟩
  · obtain ⟨enough, o, runs, sameValue, sameLocals, sameFields⟩ := (result ▸ meets fuel).run_ok start
    rw [compile_fields compiled] at sameFields
    exact ⟨enough, o, runs, sameValue, sameLocals, sameFields⟩
  · exact (result ▸ meets fuel).run_error start same
  · exact (result budget ▸ meets budget).run_outOfBudget start

end Source.Program

/-- A program that adds 12 / i over the ints i below 5, but for 0 and those that give 4. -/
def quotients : Source.Program where
  name := "Quotients"
  fields := [⟨"sum", .int⟩]
  returns := some .int
  body := [
    .declare 1 "limit" .int (some (.literal 1 (.int 5))),
    .forLoop 2 [.declare 2 "i" .int (some (.literal 2 (.int 0)))]
      (some (.binary 2 (.compare .lt) (.var 2 "i") (.var 2 "limit")))
      [.expr 2 (.step 2 .postInc (.var 2 "i"))]
      (some (.block 2 [
        .ifElse 3 (.binary 3 (.logic .or)
            (.binary 3 (.compare .eq) (.var 3 "i") (.literal 3 (.int 0)))
            (.binary 3 (.compare .eq) (.binary 3 (.arith .div) (.literal 3 (.int 12)) (.var 3 "i"))
              (.literal 3 (.int 4))))
          (.continueLoop 3) none,
        .expr 4 (.assign 4 (.field 4 "sum") (.binary 4 (.arith .add) (.field 4 "sum")
          (.binary 4 (.arith .div) (.literal 4 (.int 12)) (.var 4 "i"))))])),
    .ret 6 (some (.field 6 "sum"))]

/-- The short cut keeps it from dividing by zero, and each `continue` runs the update. -/
theorem quotients_runs :
    ∃ code, quotients.compile ⟨none, false, 0.5, 0⟩ = .ok code ∧
      ∃ enough o, (∀ budget, enough ≤ budget → code.run budget = .ok o) ∧ o.value = some (.int 21) ∧
        o.locals = #[some .ref, some (.int 5), some (.int 5)] ∧ o.fields = [("sum", .int 21)] := by
  have compiles : ∃ code, quotients.compile ⟨none, false, 0.5, 0⟩ = .ok code := ⟨_, rfl⟩
  obtain ⟨code, compiled⟩ := compiles
  have result : quotients.check.value.exec 6 =
      .ok (some (.int 21), ⟨#[some .ref, some (.int 5), some (.int 5)], #[.int 21]⟩) := rfl
  have runs := Source.Program.run_of_exec (p := quotients) (by decide) (by decide) (by decide) (by decide)
    compiled
  exact ⟨code, compiled, runs.1 6 _ _ result⟩

end Stacklet
