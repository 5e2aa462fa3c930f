import Stacklet.Compile
import Stacklet.Proofs.Assembly.Complete
import Stacklet.Proofs.Compiled.Depth
import Stacklet.Proofs.Lowering.Total
import Stacklet.Proofs.Typing.Program

/-!
# Every accepted program compiles

A program without a report has a well-formed tree. Lowering it does not fail, its calls are disciplined
and have depths, so that they assemble and verify: nothing is left to go wrong but a stack that is deeper
than 16 bits can say (`compile_of_accepted`).
-/

namespace Stacklet

namespace Typed

variable {known : Place → Prop} {body : List Stmt} {env : Surroundings} {cs : List Call} {s : LowerState}

/-- The calls of a well-formed body are disciplined. -/
theorem Lowers.disciplined (lowers : Lowers (.all body) ⟨0, []⟩ cs s)
    (wf : Stmt.AllWellFormed known env body) : Disciplined 0 cs s.labels :=
  (lowers.labelsIn nofun (Stmt.AllWellFormed.singleDefaults body wf) nofun).disciplined rfl

/-- The calls of a body start and end with an empty stack. -/
theorem Lowers.deep (lowers : Lowers (.all body) ⟨0, []⟩ cs s) : ∃ level ds, Deep level 0 cs ds 0 := by
  obtain ⟨chosen, enough⟩ := lowers.levels
  obtain ⟨⟨ds, deep⟩, -⟩ := enough (fun l => chosen l.id) (fun _ _ _ => rfl) nofun nofun
  exact ⟨_, ds, deep⟩

end Typed

/-- Code with a consistent assignment of depths verifies unless it is too deep. -/
theorem verify_of_consistent {instrs : Array Instr} {bound : Nat} {depth : Nat → Option Nat}
    (consistent : Verify.Consistent instrs bound depth) :
    (∃ m, verify instrs = .ok m) ∨ verify instrs = .error .tooDeep := by
  obtain ⟨m, -, peak⟩ := Verify.peak_eq_ok consistent
  unfold verify
  rw [peak]
  simp only [bind, Except.bind]
  split
  · exact .inl ⟨_, rfl⟩
  · exact .inr rfl

namespace Source.Program

variable {p : Source.Program}

/-- A program without a report compiles like its typed tree, whatever the limit. -/
theorem compile_eq (accepted : p.check.reports = []) (options : Options) :
    p.compile options = p.check.value.compile options := by
  simp only [compile]
  rw [if_pos (isOk_analyze_iff.2 accepted), program_analyze]

/-- The body of an accepted program without `any` is well formed over places of proper types. -/
theorem wellFormed_proper (accepted : p.check.reports = []) (locals : ∀ ty ∈ p.localTypes, ty ≠ .any)
    (fields : ∀ field ∈ p.fields, field.ty ≠ .any) :
    Typed.Stmt.AllWellFormed (·.ty ≠ .any) ⟨p.returns, []⟩ p.check.value.body := by
  obtain ⟨types, -, wf⟩ := check_accepts accepted
  refine wf _ (fun _ => id) (fun var mem => ?_) fun k field hk => fields field (List.mem_of_getElem? hk)
  exact locals var.ty (types ▸ List.mem_map_of_mem mem)

/-- Every accepted program compiles, unless its stack is too deep to be verified. -/
theorem compile_of_accepted (options : Options) (accepted : p.check.reports = [])
    (locals : ∀ ty ∈ p.localTypes, ty ≠ .any) (fields : ∀ field ∈ p.fields, field.ty ≠ .any)
    (small : codeSize p.check.value.lower.run.calls < 2147483648) :
    (∃ code, p.compile options = .ok code) ∨
    options.verifyStack = true ∧
      p.compile options = .error (.assembly (.unverified p.name .tooDeep)) := by
  have wf := wellFormed_proper accepted locals fields
  obtain ⟨cs, s, lowers, run⟩ := Typed.Program.lower_lowers (p := p.check.value) wf
  have disciplined := lowers.disciplined wf
  obtain ⟨level, ds, deep⟩ := lowers.deep
  rw [run] at small
  obtain ⟨instrs, assembled⟩ :=
    Assembler.instrs_of_disciplined disciplined .ret small options.minTableDensity
  obtain ⟨placed, -⟩ := Assembler.instrs_placed assembled
  obtain ⟨bound, consistent⟩ := deep.consistent placed fun l ⟨call, mem, hl⟩ => disciplined.bind_mem mem hl
  rw [compile_eq accepted, Typed.Program.compile, run]
  simp only [Assembler.finish, assembled, bind, Except.bind]
  cases options.verifyStack with
  | false => exact .inl ⟨_, rfl⟩
  | true =>
    rcases verify_of_consistent consistent with ⟨m, verified⟩ | deep
    · rw [verified]
      exact .inl ⟨_, rfl⟩
    · rw [deep]
      exact .inr ⟨rfl, rfl⟩

end Source.Program

/-- A program that adds the ints below 3 in a field and gives back their sum. -/
def triangle : Source.Program where
  name := "Triangle"
  fields := [⟨"sum", .int⟩]
  returns := some .int
  body := [
    .declare 1 "i" .int (some (.literal 1 (.int 0))),
    .whileDo 2 (.binary 2 (.compare .lt) (.var 2 "i") (.literal 2 (.int 3))) (.block 2 [
      .expr 3 (.assign 3 (.field 3 "sum") (.binary 3 (.arith .add) (.field 3 "sum") (.var 3 "i"))),
      .expr 4 (.step 4 .postInc (.var 4 "i"))]),
    .ret 6 (some (.field 6 "sum"))]

/-- It compiles also with a density that is none. -/
theorem triangle_compiles :
    (∃ code, triangle.compile ⟨some 1, true, 7.5, 0⟩ = .ok code) ∨
    true = true ∧ triangle.compile ⟨some 1, true, 7.5, 0⟩ =
      .error (.assembly (.unverified "Triangle" .tooDeep)) :=
  Source.Program.compile_of_accepted ⟨some 1, true, 7.5, 0⟩ (p := triangle) rfl (by decide) (by decide)
    (by decide)

end Stacklet
