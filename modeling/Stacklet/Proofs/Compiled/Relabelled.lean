import Stacklet.Proofs.Assembly.Resolved
import Stacklet.Proofs.Compiled.Preservation
import Stacklet.Proofs.Compiled.Total
import Stacklet.Proofs.Lowering.Bare
import Stacklet.Proofs.Typing.Limit

/-!
# Names and lines are only labels

Changing the names of a program, different ones to different ones, and all of its lines changes neither
the kinds of its mistakes nor the instructions that it compiles to (`compile_relabelled`).
-/

namespace Stacklet

/-- What compiles can be lowered, and its calls assemble. -/
theorem Typed.Program.compile_eq_ok_iff {p : Typed.Program} {options : Options} {code : Code} :
    p.compile options = .ok code ↔ p.lower.run.result = .ok () ∧
      (Assembler.ofCalls p.lower.run.calls).finish ⟨options.minTableDensity, options.verifyStack⟩ p.name
        p.maxLocals p.fields = .ok code := by
  unfold compile
  simp only
  cases p.lower.run.result with
  | error e =>
    constructor
    · intro h
      cases h
    · intro h
      cases h.1
  | ok u =>
    simp only [true_and]
    split
    · next failed =>
      rw [failed]
      constructor <;> intro h <;> cases h
    · next finished => rw [finished, Except.ok.injEq, Except.ok.injEq]

/-- Trees whose bodies differ in lines only are compiled to the same instructions. -/
theorem Typed.Program.compile_of_bare {p p' : Typed.Program} (body : Stmt.allBare p'.body = Stmt.allBare p.body)
    (locals : p'.maxLocals = p.maxLocals) {options : Options} {code : Code} (h : p.compile options = .ok code) :
    ∃ code', p'.compile options = .ok code' ∧ code'.instrs = code.instrs ∧ code'.maxStack = code.maxStack ∧
      code'.maxLocals = code.maxLocals := by
  have agrees : Lower.Agrees p'.lower p.lower := by
    have bodies := (Stmt.lowerAll_bare p'.body).symm
    rw [body] at bodies
    exact .bind (bodies.trans (Stmt.lowerAll_bare p.body)) fun _ => .refl _
  obtain ⟨calls, -, result⟩ := agrees ⟨0, []⟩
  obtain ⟨lowered, finished⟩ := compile_eq_ok_iff.1 h
  obtain ⟨assembled, -, maxLocals, -, verified⟩ := Assembler.finish_eq_ok_iff.1 finished
  have lowered' : p'.lower.run.result = .ok () := by
    change (p'.lower.run.result).toOption = (p.lower.run.result).toOption at result
    rw [lowered] at result
    cases hr : p'.lower.run.result with
    | error e => rw [hr] at result; cases result
    | ok u => rfl
  refine ⟨⟨p'.name, code.instrs, code.maxStack, code.maxLocals, p'.fields⟩,
    compile_eq_ok_iff.2 ⟨lowered', ?_⟩, rfl, rfl, rfl⟩
  change p'.lower.run.calls = p.lower.run.calls at calls
  rw [calls]
  exact Assembler.finish_eq_ok_iff.2 ⟨assembled, rfl, maxLocals.trans locals.symm, rfl, verified⟩

namespace Source.Program

variable {p p' : Program} {ρ : String → String}

/-- A program is another one with its names changed and with any lines. -/
def Relabels (ρ : String → String) (p p' : Program) : Prop := p'.bare id = p.bare ρ

/-- What compiles still does so after a change that shows neither in the kinds of the reports nor in the bare
tree. -/
theorem compile_of_bare (reports : kinds p'.check.reports = kinds p.check.reports)
    (locals : p'.check.value.maxLocals = p.check.value.maxLocals)
    (body : Typed.Stmt.allBare p'.check.value.body = Typed.Stmt.allBare p.check.value.body) {options : Options}
    {code : Code} (h : p.compile options = .ok code) :
    ∃ code', p'.compile options = .ok code' ∧ code'.instrs = code.instrs ∧ code'.maxStack = code.maxStack ∧
      code'.maxLocals = code.maxLocals := by
  obtain ⟨accepted, compiled⟩ := compile_eq_ok h
  have accepted' : p'.check.reports = [] := by
    rw [accepted] at reports
    exact List.map_eq_nil_iff.1 reports
  rw [compile_eq accepted']
  exact Typed.Program.compile_of_bare body locals compiled

/-- Names and lines are only labels. Whatever lines a program is given and however its names are changed, as
long as different ones stay different, the check without a limit reports mistakes of the same kinds in the
same order and makes the same tree of it, but for lines and the names of fields. It compiles if and only if
it did before, to the same instructions, with the same depth of the stack and the same number of locals. -/
theorem compile_relabelled (injective : Function.Injective ρ) (relabels : p.Relabels ρ p') :
    kinds (p'.analyze none).diagnostics.recorded.toList = kinds (p.analyze none).diagnostics.recorded.toList ∧
    (p'.analyze none).program.bare = (p.analyze none).program.bare ∧
    ∀ options, ((∃ code', p'.compile options = .ok code') ↔ ∃ code, p.compile options = .ok code) ∧
      ∀ code code', p.compile options = .ok code → p'.compile options = .ok code' →
        code'.instrs = code.instrs ∧ code'.maxStack = code.maxStack ∧ code'.maxLocals = code.maxLocals := by
  have relabels : p'.bare id = p.bare ρ := relabels
  obtain ⟨reports', locals', body'⟩ := check_bare Function.injective_id p'
  obtain ⟨reports, locals, body⟩ := check_bare injective p
  rw [relabels] at reports' locals' body'
  have sameReports := reports'.symm.trans reports
  have sameLocals := locals'.symm.trans locals
  have sameBody := body'.symm.trans body
  refine ⟨?_, ?_, fun options => ⟨⟨?_, ?_⟩, fun code code' compiled compiled' => ?_⟩⟩
  · simp only [analyze_eq, Diagnostics.recorded_ofReports_none]
    exact sameReports
  · have name : (p'.bare id).name = (p.bare ρ).name := by rw [relabels]
    have returns : (p'.bare id).returns = (p.bare ρ).returns := by rw [relabels]
    have fields := congrArg (fun q => q.fields.map fun field => (⟨"", field.ty⟩ : FieldDecl)) relabels
    simp only [bare, List.map_map, Function.comp_def] at fields
    change (⟨(p'.bare id).name, p'.fields.map _, (p'.bare id).returns, p'.check.value.maxLocals,
      Typed.Stmt.allBare p'.check.value.body⟩ : Typed.Program) = _
    rw [name, returns, fields, sameLocals, sameBody]
    rfl
  · rintro ⟨code', compiled'⟩
    obtain ⟨code, compiled, -⟩ := compile_of_bare sameReports.symm sameLocals.symm sameBody.symm compiled'
    exact ⟨code, compiled⟩
  · rintro ⟨code, compiled⟩
    obtain ⟨code', compiled', -⟩ := compile_of_bare sameReports sameLocals sameBody compiled
    exact ⟨code', compiled'⟩
  · obtain ⟨code₁, compiled₁, same⟩ := compile_of_bare sameReports sameLocals sameBody compiled
    rw [compiled'] at compiled₁
    cases compiled₁
    exact same

end Source.Program

/-- A program with a field and a local that it adds. -/
def tally : Source.Program where
  name := "Tally"
  fields := [⟨"a", .int⟩]
  returns := some .int
  body := [
    .declare 1 "b" .int (some (.field 1 "a")),
    .ret 2 (some (.binary 2 (.arith .add) (.var 2 "a") (.var 2 "b")))]

/-- It reads differently, and stands on other lines. -/
def tallyRelabelled : Source.Program where
  name := "Tally"
  fields := [⟨"the a", .int⟩]
  returns := some .int
  body := [
    .declare 40 "the b" .int (some (.field 0 "the a")),
    .ret 12 (some (.binary 7 (.arith .add) (.var 7 "the a") (.var 8 "the b")))]

theorem tally_relabelled :
    ∃ code code', tally.compile ⟨none, false, 0.5, 0⟩ = .ok code ∧
      tallyRelabelled.compile ⟨none, false, 0.5, 0⟩ = .ok code' ∧ code'.instrs = code.instrs ∧
      code'.maxStack = code.maxStack ∧ code'.maxLocals = code.maxLocals := by
  have compiles : ∃ code, tally.compile ⟨none, false, 0.5, 0⟩ = .ok code := ⟨_, rfl⟩
  have compiles' : ∃ code, tallyRelabelled.compile ⟨none, false, 0.5, 0⟩ = .ok code := ⟨_, rfl⟩
  obtain ⟨code, compiled⟩ := compiles
  obtain ⟨code', compiled'⟩ := compiles'
  have injective : Function.Injective ("the " ++ ·) := fun a b h => (String.append_right_inj _).1 h
  have relabels : tally.Relabels ("the " ++ ·) tallyRelabelled := rfl
  have same := (Source.Program.compile_relabelled injective relabels).2.2 ⟨none, false, 0.5, 0⟩
  exact ⟨code, code', compiled, compiled', same.2 code code' compiled compiled'⟩

end Stacklet
