import Stacklet.Proofs.Assembly.Discipline
import Stacklet.Proofs.Compiled.Preservation
import Stacklet.Proofs.Compiled.Total
import Stacklet.Proofs.Lowering.Parts
import Stacklet.Proofs.Typing.Derivation

/-!
# Compiled code leaves nothing on the stack

Whatever compiles has a depth for every instruction, verified or not and with the type `any` or without. A
run follows these depths: it finds an empty stack wherever the code of a statement begins, and at a return
no more than the value that is given back (`compile_balanced`).
-/

namespace Stacklet

/-! ## Defaults -/

/-- Whether every switch in a checked piece has at most one default. For the groups of a switch those met
before count too. -/
def CheckedPiece.SingleDefaults : CheckedPiece → Prop
  | .stmt _ t => t.SingleDefaults
  | .all _ ts => Typed.Stmt.AllSingleDefaults ts
  | .groups _ seen _ gs =>
    Typed.Stmt.GroupsSingleDefaults gs ∧ Typed.defaults gs + seen.hasDefault.toNat ≤ 1

/-- What is checked without a report has no switch with two defaults, whatever its types are. -/
theorem Checks.singleDefaults {env : Surroundings} {piece : CheckedPiece} {st st' : CheckState}
    {ds : List Diagnostic} (h : Checks env piece st ds st') (silent : ds = []) : piece.SingleDefaults := by
  induction h with
  | declare | redeclare | expr | breakOut | continueLoop | ret | empty | nil => trivial
  | block _ ih => exact ih silent
  | ifThen _ _ ih | whileDo _ _ ih => exact ih (List.append_eq_nil_iff.1 silent).2
  | doWhile _ _ ih => exact ih (List.append_eq_nil_iff.1 silent).1
  | ifElse _ _ _ ih₁ ih₂ =>
    simp only [List.append_eq_nil_iff] at silent
    exact ⟨ih₁ silent.2.1, ih₂ silent.2.2⟩
  | forEmpty _ _ _ ih₁ ih₂ =>
    simp only [List.append_eq_nil_iff] at silent
    exact ⟨ih₁ silent.1, ih₂ silent.2.2, trivial⟩
  | forLoop _ _ _ _ ih₁ ih₂ ih₃ =>
    simp only [List.append_eq_nil_iff] at silent
    exact ⟨ih₁ silent.1, ih₂ silent.2.2.1, ih₃ silent.2.2.2⟩
  | switch _ _ ih =>
    simp only [List.append_eq_nil_iff] at silent
    obtain ⟨groups, once⟩ := ih silent.2.2
    exact ⟨once, groups⟩
  | cons _ _ ih₁ ih₂ =>
    rw [List.append_eq_nil_iff] at silent
    exact ⟨ih₁ silent.1, ih₂ silent.2⟩
  | @noGroups _ _ seen => exact ⟨trivial, by cases seen.hasDefault <;> decide⟩
  | group labels _ _ ih₁ ih₂ =>
    simp only [List.append_eq_nil_iff] at silent
    obtain ⟨rfl, silent₁, silent₂⟩ := silent
    obtain ⟨groups, once⟩ := ih₂ silent₂
    have counted := Source.CaseLabel.count_checkAll labels
    refine ⟨⟨ih₁ silent₁, groups⟩, ?_⟩
    rw [Typed.defaults, List.flatMap_cons, List.count_append]
    rw [Typed.defaults] at once
    simp only
    omega

theorem Source.Program.singleDefaults {p : Source.Program} (accepted : p.check.reports = []) :
    Typed.Stmt.AllSingleDefaults p.check.value.body := by
  obtain ⟨ds, st, checks, reports, -⟩ := p.check_checks
  rw [accepted] at reports
  exact checks.singleDefaults (List.append_eq_nil_iff.1 reports.symm).2

/-! ## Heights -/

section

variable {code : Code} {position level : Label → Nat} {cs cs' : List Call} {ds : List Nat} {pc : Nat} {f : Frame}

/-- A run comes to every instruction with the depth that is found along the calls. -/
theorem Deep.height (h : Deep level 0 cs ds 0) (placed : Placed code.instrs position 0 (cs ++ [.add .ret]))
    (bound : ∀ l, Mentioned l cs → .bind l ∈ cs) (reached : code.Reaches pc f) :
    (ds ++ [0])[pc]? = some f.stack.height := by
  obtain ⟨most, consistent⟩ := h.consistent placed bound
  exact (reached.follows consistent).height

/-- A run finds no more than it takes at a return. -/
theorem Deep.height_return (h : Deep level 0 cs ds 0) (placed : Placed code.instrs position 0 (cs ++ [.add .ret]))
    (bound : ∀ l, Mentioned l cs → .bind l ∈ cs) (reached : code.Reaches pc f) {i : Instr}
    (hi : code.instrs[pc]? = some i) (stops : i.fallsThrough = false) (none : i.offsets = []) :
    f.stack.height = i.pops := by
  obtain ⟨i', hi', fits⟩ := h.fits placed (h.height placed bound reached)
  rw [hi] at hi'
  cases hi'
  exact fits.returns stops none

/-- A run finds an empty stack between calls that start and end with one. -/
theorem Moves.height_between (h : Moves level 0 cs 0) (h' : Moves level 0 cs' 0)
    (placed : Placed code.instrs position 0 (cs ++ cs' ++ [.add .ret]))
    (bound : ∀ l, Mentioned l (cs ++ cs') → .bind l ∈ cs ++ cs') (reached : code.Reaches (codeSize cs) f) :
    f.stack.height = 0 := by
  obtain ⟨ds, deep⟩ := h
  obtain ⟨ds', deep'⟩ := h'
  have height := (deep.append deep').height placed bound reached
  rw [← deep.length, List.append_assoc, List.getElem?_append_right (Nat.le_refl _), Nat.sub_self,
    deep'.head] at height
  exact (Option.some.inj height).symm

/-- A run that ends does so at a return. -/
theorem Code.advance_eq_finished {value : Option Value} {f' : Frame}
    (h : code.advance pc f = .ok (.finished value f')) :
    ∃ i, code.instrs[pc]? = some i ∧ i.fallsThrough = false ∧ i.offsets = [] ∧
      f'.stack.height = f.stack.height - i.pops := by
  unfold Code.advance at h
  split at h
  · cases h
  · next i hi =>
    split at h
    · cases h
    · cases h
    · next hs =>
      cases h
      obtain ⟨stops, none⟩ := i.exec_flow _ _ _ hs
      obtain ⟨-, height⟩ := i.exec_effect.height hs
      have pushes : i.pushes = 0 := by
        cases i with
        | ret | retValue => rfl
        | goto | tableSwitch | lookupSwitch => cases none
        | _ => cases stops
      rw [pushes, Nat.add_zero] at height
      exact ⟨i, hi, stops, none, height⟩
    · simp only at h
      split at h <;> cases h

end

/-! ## Compiled programs -/

/-- The code of a statement of a program begins at a position. -/
def Typed.Program.Begins (p : Typed.Program) (t : Typed.Stmt) (pc : Nat) : Prop :=
  ∃ s₀ s₁ s before code after, Typed.Within ⟨.stmt t, s₀, s₁⟩ before after ⟨.all p.body, ⟨0, []⟩, s⟩ ∧
    Typed.Lowers (.stmt t) s₀ code s₁ ∧ p.lower.run.calls = before ++ (code ++ after) ++ [.add .ret] ∧
    pc = codeSize before

/-- What compiles was lowered by the rules. -/
theorem Typed.Program.lowers_of_compile {p : Typed.Program} {options : Options} {code : Code}
    (h : p.compile options = .ok code) :
    ∃ cs s, Typed.Lowers (.all p.body) ⟨0, []⟩ cs s ∧ p.lower.run.calls = cs ++ [.add .ret] := by
  have ok : p.lower.run.result = .ok () := by
    unfold compile at h
    simp only at h
    split at h
    · cases h
    · assumption
  exact lowers_of_ok ok

namespace Source.Program

variable {p : Source.Program} {options : Options} {code : Code} (compiled : p.compile options = .ok code)

include compiled

/-- Compiled code holds calls that follow the rules and bind all labels that they mention. -/
theorem calls_of_compile : ∃ cs s position, Typed.Lowers (.all p.check.value.body) ⟨0, []⟩ cs s ∧
    p.check.value.lower.run.calls = cs ++ [.add .ret] ∧ Placed code.instrs position 0 (cs ++ [.add .ret]) ∧
    ∀ l, Mentioned l cs → .bind l ∈ cs := by
  obtain ⟨accepted, assembled⟩ := compile_eq_ok compiled
  obtain ⟨cs, s, lowers, run⟩ := Typed.Program.lowers_of_compile assembled
  obtain ⟨position, placed, -, -⟩ := Typed.Program.compile_placed assembled
  rw [run] at placed
  have disciplined := (lowers.labelsIn nofun (singleDefaults accepted) nofun).disciplined rfl
  exact ⟨cs, s, position, lowers, run, placed, fun l ⟨call, mem, hl⟩ => disciplined.bind_mem mem hl⟩

/-- The stack is empty where the code of a statement begins. -/
theorem height_of_begins {t : Typed.Stmt} {pc : Nat} {f : Frame} (begins : p.check.value.Begins t pc)
    (reached : code.Reaches pc f) : f.stack.height = 0 := by
  obtain ⟨s₀, s₁, s', before, inner, after, within, lowers, split, rfl⟩ := begins
  obtain ⟨cs, s, position, -, run, placed, bound⟩ := calls_of_compile compiled
  obtain ⟨rfl, -⟩ := List.append_inj' (run.symm.trans split) rfl
  obtain ⟨chosen, enough⟩ := within.levels lowers
  obtain ⟨⟨moves, moves', moves''⟩, -⟩ := enough (fun l => chosen l.id) (fun _ _ _ => rfl) nofun nofun
  exact moves.height_between (moves'.append moves'') placed bound reached

/-- A return takes all that is on the stack. -/
theorem height_of_return {pc : Nat} {f : Frame} {i : Instr} (reached : code.Reaches pc f)
    (hi : code.instrs[pc]? = some i) (stops : i.fallsThrough = false) (none : i.offsets = []) :
    f.stack.height = i.pops := by
  obtain ⟨cs, s, position, lowers, -, placed, bound⟩ := calls_of_compile compiled
  obtain ⟨level, ds, deep⟩ := lowers.deep
  exact deep.height_return placed bound reached hi stops none

/-- Compiled code leaves nothing on the stack, whatever the options and the budget are. The code of every
statement begins somewhere, and wherever it begins the stack is empty; it is empty at a bare return, and
holds one value at a return that gives one back. -/
theorem compile_balanced :
    (∀ budget o, code.run budget = .ok o → o.stackLeft = 0) ∧
    (∀ entry ∈ p.check.value.placed, ∃ pc, p.check.value.Begins entry.2 pc) ∧
    (∀ t pc f, p.check.value.Begins t pc → code.Reaches pc f → f.stack.height = 0) ∧
    (∀ pc f, code.Reaches pc f → code.instrs[pc]? = some .ret → f.stack.height = 0) ∧
    ∀ pc f kind, code.Reaches pc f → code.instrs[pc]? = some (.retValue kind) → f.stack.height = 1 := by
  refine ⟨fun budget o ran => ?_, fun entry mem => ?_, fun t pc f begins reached => ?_, fun pc f reached hi => ?_,
    fun pc f kind reached hi => ?_⟩
  · obtain ⟨pc, f, value, f', reached, ends, steps, rfl⟩ := Code.run_eq_ok ran
    obtain ⟨i, hi, stops, none, height⟩ := Code.advance_eq_finished ends
    have all := height_of_return compiled reached hi stops none
    change f'.stack.height = 0
    omega
  · obtain ⟨cs, s, position, lowers, run, -, -⟩ := calls_of_compile compiled
    have mem : (entry.1, entry.2) ∈ (Typed.Piece.all p.check.value.body).placed [] := mem
    obtain ⟨s₀, s₁, before, inner, after, within, lowered, rfl⟩ := lowers.holds mem
    exact ⟨codeSize before, s₀, s₁, s, before, inner, after, within, lowered, run, rfl⟩
  · exact height_of_begins compiled begins reached
  · exact height_of_return compiled reached hi rfl rfl
  · exact height_of_return compiled reached hi rfl rfl

end Source.Program

/-- A program that counts down in a loop that only a return leaves. Its local of type `any` is never used. -/
def descent : Source.Program where
  name := "Descent"
  fields := []
  returns := some .int
  body := [
    .declare 1 "spare" .any none,
    .declare 2 "i" .int (some (.literal 2 (.int 2))),
    .whileDo 3 (.literal 3 (.bool true)) (.block 3 [
      .ifElse 4 (.binary 4 (.compare .eq) (.var 4 "i") (.literal 4 (.int 0))) (.ret 4 (some (.var 4 "i"))) none,
      .expr 5 (.step 5 .postDec (.var 5 "i"))])]

theorem descent_balanced :
    ∃ code o, descent.compile ⟨none, false, 0.5, 0⟩ = .ok code ∧ code.run 20 = .ok o ∧ o.stackLeft = 0 := by
  have evaluated : ((descent.compile ⟨none, false, 0.5, 0⟩).toOption.bind fun code =>
      (code.run 20).toOption.map (·.steps)) = some 17 := by decide +kernel
  cases compiled : descent.compile ⟨none, false, 0.5, 0⟩ with
  | error e => rw [compiled] at evaluated; cases evaluated
  | ok code =>
    rw [compiled] at evaluated
    cases ran : code.run 20 with
    | error e => simp only [Except.toOption, Option.bind_some, ran] at evaluated; cases evaluated
    | ok o => exact ⟨code, o, rfl, ran, (Source.Program.compile_balanced compiled).1 20 o ran⟩

end Stacklet
