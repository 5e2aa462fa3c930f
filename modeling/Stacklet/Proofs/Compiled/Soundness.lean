import Stacklet.Proofs.Compiled.Preservation
import Stacklet.Proofs.Evaluation.Soundness

/-!
# Compiled code keeps types

A run of compiled code goes where the evaluation of its program goes. So it fails for no reason but those
for which a program may fail, and the receiver, the locals and the fields hold values of their types at
every instruction that it comes to (`run_typed`).
-/

namespace Stacklet

namespace Typed.Program

/-- A store in which the places of a program hold values of their types: the receiver is in slot 0, the
slot of a local is empty or has a value of its type, and a field has a value of its type. -/
structure Admits (p : Program) (σ : Store) : Prop where
  receiver : σ.locals[0]? = some (some .ref)
  locals : ∀ var ∈ p.locals, ∃ content, σ.locals[var.slot.toNat]? = some content ∧
    ∀ v ∈ content, v.HasTy var.ty
  fields : ∀ {k : Nat} {field : FieldDecl}, p.fields[k]? = some field →
    ∃ v, σ.fields[k]? = some v ∧ v.HasTy field.ty

variable {p : Program} {σ : Store}

/-- A store that fits the layout of a program, whose locals have the slots from 1 on. -/
theorem admits_of_fits (fits : p.layout.Fits σ)
    (slots : ∀ k var, p.locals[k]? = some var → var.slot.toNat = k + 1) : p.Admits σ where
  receiver := fits.receiver
  locals var mem := by
    obtain ⟨k, hk⟩ := List.mem_iff_getElem?.1 mem
    have listed : p.layout.locals[k]? = some var.ty := by
      rw [layout, List.getElem?_map, hk]
      rfl
    have inside : k + 1 < σ.locals.size := by
      rw [fits.size]
      exact Nat.succ_lt_succ (List.getElem?_eq_some_iff.1 listed).1
    rw [slots k var hk, Array.getElem?_eq_getElem inside]
    refine ⟨_, rfl, fun v held => fits.locals listed ?_⟩
    rw [Array.getElem?_eq_getElem inside, held]
  fields {k field} hk := by
    refine fits.fields ?_
    rw [layout, List.getElem?_map, hk]
    rfl

/-- What a program gives back is a result of its type, and the store that it leaves fits its layout. -/
theorem exec_typed {fuel : Nat} {value : Option Value} {σ' : Store}
    (wf : Stmt.AllWellFormed p.layout.Knows ⟨p.returns, []⟩ p.body) (fits : p.layout.Fits p.start)
    (h : p.exec fuel = .ok (value, σ')) : IsResult p.returns value ∧ p.layout.Fits σ' := by
  rw [exec_eq] at h
  have nothing : IsResult p.returns none := by
    unfold IsResult
    split
    · rfl
    · nofun
  have keeps : p.layout.Keeps (Stmt.execAll fuel p.body >>= ending) (IsResult p.returns) := by
    refine (Stmt.execAll_keeps fuel ⟨p.returns, []⟩ p.body wf).bind fun exit respects => ?_
    cases exit with
    | returns value => exact Layout.keeps_pure respects
    | _ => exact Layout.keeps_pure nothing
  exact keeps p.start σ' value fits h

end Typed.Program

namespace Source.Program

variable {p : Program} {options : Options} {code : Code} (localTypes : ∀ ty ∈ p.localTypes, ty ≠ .any)
  (fieldTypes : ∀ field ∈ p.fields, field.ty ≠ .any) (locals : p.localTypes.length ≤ 65534)
  (fields : p.fields.length ≤ 65536) (compiled : p.compile options = .ok code)

include localTypes fieldTypes locals fields compiled

/-- Where a run of compiled code comes to: the store fits, and the instruction there leads on, or ends as
evaluation with enough fuel does. -/
theorem reached_of_compile {pc : Nat} {f : Frame} (reached : code.Reaches pc f) :
    p.check.value.layout.Fits f.store ∧
    ((∃ pc' f', code.advance pc f = .ok (.running pc' f')) ∨
      (∃ fuel value f', code.advance pc f = .ok (.finished value f') ∧
        p.check.value.exec fuel = .ok (value, f'.store)) ∨
      ∃ fuel halt fault, code.advance pc f = .error (.fault fault) ∧ Halt.fault? halt = some fault ∧
        p.check.value.exec fuel = .error halt) := by
  obtain ⟨n, steps⟩ := reached
  rw [compile_start compiled] at steps
  have meets := compile_meets localTypes fieldTypes locals fields compiled (n + 1)
  obtain ⟨fits, goes | ⟨value, f', ends, result⟩ | ⟨halt, fault, result, same, fails⟩⟩ :=
    meets.reached steps fun _ => Nat.lt_succ_self n
  · exact ⟨fits, .inl goes⟩
  · exact ⟨fits, .inr (.inl ⟨n + 1, value, f', ends, result⟩)⟩
  · exact ⟨fits, .inr (.inr ⟨n + 1, halt, fault, fails, same, result⟩)⟩

/-- The reasons for which a run of compiled code may fail. -/
theorem run_error_cases {budget : Nat} {e : RunError} (failed : code.run budget = .error e) :
    e = .outOfBudget budget ∨ e = .fault .divisionByZero ∨ ∃ slot, e = .fault (.uninitialized slot) := by
  obtain rfl | ⟨pc, f, reached, fails⟩ := Code.run_eq_error failed
  · exact .inl rfl
  · obtain ⟨-, ⟨pc', f', goes⟩ | ⟨fuel, value, f', ends, -⟩ | ⟨fuel, halt, fault, fails', same, -⟩⟩ :=
      reached_of_compile localTypes fieldTypes locals fields compiled reached
    · rw [goes] at fails
      cases fails
    · rw [ends] at fails
      cases fails
    · rw [fails'] at fails
      cases fails
      cases halt with
      | divisionByZero => cases same; exact .inr (.inl rfl)
      | uninitialized slot => cases same; exact .inr (.inr ⟨slot, rfl⟩)
      | outOfFuel => cases same

/-- Wherever a run of compiled code comes to, the places of the program hold values of their types. -/
theorem admits_of_reaches {pc : Nat} {f : Frame} (reached : code.Reaches pc f) :
    p.check.value.Admits f.store := by
  obtain ⟨accepted, -⟩ := compile_eq_ok compiled
  obtain ⟨-, slots⟩ := check_slots accepted locals
  obtain ⟨fits, -⟩ := reached_of_compile localTypes fieldTypes locals fields compiled reached
  exact Typed.Program.admits_of_fits fits slots

/-- What a run of compiled code gives back and leaves has the types that the program declares. -/
theorem run_ok_typed {budget : Nat} {o : Outcome} (ended : code.run budget = .ok o) :
    IsResult p.returns o.value ∧ ∃ σ, p.check.value.Admits σ ∧ o.locals = σ.locals ∧
      o.fields = (p.fields.map (·.name)).zip σ.fields.toList := by
  obtain ⟨accepted, -⟩ := compile_eq_ok compiled
  have wf := wellFormed_layout accepted localTypes fieldTypes locals fields
  obtain ⟨-, slots⟩ := check_slots accepted locals
  obtain ⟨pc, f, value, f', reached, ends, steps, rfl⟩ := Code.run_eq_ok ended
  obtain ⟨-, ⟨pc', f'', goes⟩ | ⟨fuel, value', f'', ends', result⟩ | ⟨fuel, halt, fault, fails, -⟩⟩ :=
    reached_of_compile localTypes fieldTypes locals fields compiled reached
  · rw [goes] at ends
    cases ends
  · rw [ends'] at ends
    cases ends
    obtain ⟨typed, fits⟩ := Typed.Program.exec_typed wf (fits_start accepted locals) result
    refine ⟨typed, f'.store, Typed.Program.admits_of_fits fits slots, rfl, ?_⟩
    rw [Code.outcome, compile_fields compiled]
    rfl
  · rw [fails] at ends
    cases ends

/-- A run of compiled code fails only when its budget is used up, for a division by zero or for a local
that was never written. Wherever it comes to, slot 0 holds the receiver, every local is empty or has a
value of its type, and every field has one; and what it gives back is of the declared type. -/
theorem run_typed :
    (∀ budget e, code.run budget = .error e →
      e = .outOfBudget budget ∨ e = .fault .divisionByZero ∨ ∃ slot, e = .fault (.uninitialized slot)) ∧
    (∀ pc f, code.Reaches pc f → p.check.value.Admits f.store) ∧
    (∀ budget o, code.run budget = .ok o → IsResult p.returns o.value ∧
      ∃ σ, p.check.value.Admits σ ∧ o.locals = σ.locals ∧
        o.fields = (p.fields.map (·.name)).zip σ.fields.toList) := by
  refine ⟨fun budget e failed => ?_, fun pc f reached => ?_, fun budget o ended => ?_⟩
  · exact run_error_cases localTypes fieldTypes locals fields compiled failed
  · exact admits_of_reaches localTypes fieldTypes locals fields compiled reached
  · exact run_ok_typed localTypes fieldTypes locals fields compiled ended

end Source.Program

/-- A program that counts down from 2 until 6 divided by the count is 6, and keeps whether it is in a local
and in a field. -/
def search : Source.Program where
  name := "Search"
  fields := [⟨"found", .boolean⟩]
  returns := some .boolean
  body := [
    .declare 1 "n" .int (some (.literal 1 (.int 2))),
    .declare 2 "last" .boolean none,
    .doWhile 3 (.block 3 [
      .expr 4 (.assign 4 (.var 4 "last") (.binary 4 (.compare .eq)
        (.binary 4 (.arith .div) (.literal 4 (.int 6)) (.var 4 "n")) (.literal 4 (.int 6)))),
      .expr 5 (.assign 5 (.field 5 "found") (.var 5 "last")),
      .expr 6 (.step 6 .preDec (.var 6 "n"))])
      (.unary 7 .not (.field 7 "found")),
    .ret 8 (some (.var 8 "last"))]

/-- Its local without a value at the start is never anything but a truth value. -/
theorem search_typed :
    ∃ code, search.compile ⟨none, false, 0.5, 0⟩ = .ok code ∧
      (∀ budget e, code.run budget = .error e →
        e = .outOfBudget budget ∨ e = .fault .divisionByZero ∨ ∃ slot, e = .fault (.uninitialized slot)) ∧
      (∀ pc f, code.Reaches pc f → search.check.value.Admits f.store) ∧
      (∀ budget o, code.run budget = .ok o → IsResult (some .boolean) o.value ∧
        ∃ σ, search.check.value.Admits σ ∧ o.locals = σ.locals ∧
          o.fields = ["found"].zip σ.fields.toList) := by
  have compiles : ∃ code, search.compile ⟨none, false, 0.5, 0⟩ = .ok code := ⟨_, rfl⟩
  obtain ⟨code, compiled⟩ := compiles
  exact ⟨code, compiled, Source.Program.run_typed (p := search) (by decide) (by decide) (by decide)
    (by decide) compiled⟩

end Stacklet
