import Stacklet.Proofs.Evaluation.Stmt
import Stacklet.Proofs.Machine.Reach

/-!
# Runs that meet a result

A point is a position in the code with a stack and a store. `Meets code ok n p r` says that from the
point `p` on the machine comes to what evaluation gives: it returns the value of `r` and leaves its
store, or it fails with the fault of `r`. If evaluation ran out of fuel, the machine executes at least
`n` instructions. The stores of all points on the way are `ok`.

Facts on code are stated with the evaluation of what comes after it: if that is met where the code ends,
then the whole is met where the code starts. The rest of the evaluation may be any, so that errors and
jumps out of loops need no rules of their own. What this needs of `Meets` is that it goes back along
instructions (`Code.Backward`), and other properties of runs do so too.
-/

namespace Stacklet

/-- The frame of a store with a stack and a greatest height of the stack so far. -/
def Store.frame (σ : Store) (stack : List Value) (peak : Nat) : Frame :=
  ⟨⟨stack, stack.length, rfl⟩, σ.locals, σ.fields, peak⟩

/-- The store of a frame. -/
def Frame.store (f : Frame) : Store := ⟨f.locals, f.fields⟩

/-- The fault with which the machine fails where evaluation halts. -/
def Halt.fault? : Halt → Option Fault
  | .divisionByZero => some .divisionByZero
  | .uninitialized slot => some (.uninitialized slot)
  | .outOfFuel => none

/-- Where a run stands, but for the greatest height of the stack. -/
structure Point where
  pc : Nat
  stack : List Value
  store : Store

/-- The frame at a point. -/
def Point.frame (p : Point) (peak : Nat) : Frame := p.store.frame p.stack peak

/-- What evaluating a program gives. -/
abbrev Result := Except Halt (Option Value × Store)

namespace Code

variable (code : Code)

/-- One instruction leads from a point to another. -/
def Leads (p p' : Point) : Prop :=
  ∀ peak, ∃ peak', code.advance p.pc (p.frame peak) = .ok (.running p'.pc (p'.frame peak'))

/-- The instruction at a point returns a value, and leaves the store. -/
def Returns (p : Point) (value : Option Value) : Prop :=
  ∀ peak, ∃ stack peak', code.advance p.pc (p.frame peak) = .ok (.finished value (p.store.frame stack peak'))

/-- The instruction at a point fails. -/
def Fails (p : Point) (fault : Fault) : Prop :=
  ∀ peak, code.advance p.pc (p.frame peak) = .error (.fault fault)

end Code

/-- From a point on the machine comes to a result, or executes some more instructions if there is none. -/
inductive Meets (code : Code) (ok : Store → Prop) : Nat → Point → Result → Prop
  | goesOn {p} : ok p.store → Meets code ok 0 p (.error .outOfFuel)
  | returns {n p value} : ok p.store → code.Returns p value → Meets code ok n p (.ok (value, p.store))
  | fails {n p halt fault} : ok p.store → halt.fault? = some fault → code.Fails p fault →
    Meets code ok n p (.error halt)
  | step {m n p p' r} : ok p.store → code.Leads p p' → Meets code ok n p' r → m ≤ n + 1 → Meets code ok m p r

namespace Meets

variable {code : Code} {ok : Store → Prop} {m n : Nat} {p : Point} {r : Result}

theorem mono (h : Meets code ok n p r) (le : m ≤ n) : Meets code ok m p r := by
  cases h with
  | goesOn hok => rw [Nat.le_zero.1 le]; exact .goesOn hok
  | returns hok ret => exact .returns hok ret
  | fails hok hh hf => exact .fails hok hh hf
  | step hok leads rest le' => exact .step hok leads rest (Nat.le_trans le le')

/-- Without fuel the rest may take no step at all. -/
theorem outOfFuel (hok : ok p.store) (none : n = 0) : Meets code ok n p (.error .outOfFuel) := by
  subst none
  exact .goesOn hok

/-- Where the steps from a point come to, as long as they are no more than evaluation accounts for: to a
store that is `ok`, at an instruction that leads on or ends as evaluation says. -/
theorem reached (h : Meets code ok n p r) {k pc peak : Nat} {f : Frame}
    (steps : code.Steps k p.pc (p.frame peak) pc f) (within : r = .error .outOfFuel → k < n) :
    ok f.store ∧ ((∃ pc' f', code.advance pc f = .ok (.running pc' f')) ∨
      (∃ value f', code.advance pc f = .ok (.finished value f') ∧ r = .ok (value, f'.store)) ∨
      ∃ halt fault, r = .error halt ∧ halt.fault? = some fault ∧
        code.advance pc f = .error (.fault fault)) := by
  induction h generalizing k peak with
  | goesOn => exact absurd (within rfl) (Nat.not_lt_zero k)
  | @returns n p value hok ret =>
    obtain ⟨stack, peak', ends⟩ := ret peak
    cases steps with
    | refl => exact ⟨hok, .inr (.inl ⟨value, _, ends, rfl⟩)⟩
    | step goes _ => rw [ends] at goes; cases goes
  | @fails n p halt fault hok hh hf =>
    cases steps with
    | refl => exact ⟨hok, .inr (.inr ⟨halt, fault, rfl, hh, hf peak⟩)⟩
    | step goes _ => rw [hf peak] at goes; cases goes
  | @step m n p p' r hok leads _ le ih =>
    obtain ⟨peak', goes⟩ := leads peak
    cases steps with
    | refl => exact ⟨hok, .inl ⟨_, _, goes⟩⟩
    | step goes' steps =>
      rw [goes] at goes'
      cases goes'
      refine ih steps fun out => ?_
      have := within out
      omega

/-- How a run ends that evaluation has a result for. -/
theorem ends (h : Meets code ok n p r) (fuel : r ≠ .error .outOfFuel) (peak : Nat) :
    ∃ k pc f, code.Steps k p.pc (p.frame peak) pc f ∧
      ((∃ value f', code.advance pc f = .ok (.finished value f') ∧ r = .ok (value, f'.store)) ∨
       ∃ halt fault, r = .error halt ∧ halt.fault? = some fault ∧
        code.advance pc f = .error (.fault fault)) := by
  induction h generalizing peak with
  | goesOn => exact absurd rfl fuel
  | @returns n p value hok ret =>
    obtain ⟨stack, peak', ends⟩ := ret peak
    exact ⟨0, _, _, .refl _ _, .inl ⟨value, _, ends, rfl⟩⟩
  | fails hok hh hf => exact ⟨0, _, _, .refl _ _, .inr ⟨_, _, rfl, hh, hf peak⟩⟩
  | step hok leads _ _ ih =>
    obtain ⟨peak', goes⟩ := leads peak
    obtain ⟨k, pc, f, steps, rest⟩ := ih fuel peak'
    exact ⟨k + 1, pc, f, .step goes steps, rest⟩

/-- A run that evaluation has no result for takes as many steps as it accounts for. -/
theorem runs (h : Meets code ok n p (.error .outOfFuel)) (peak : Nat) :
    ∃ k pc f, n ≤ k ∧ code.Steps k p.pc (p.frame peak) pc f := by
  generalize hr : (.error .outOfFuel : Result) = r at h
  induction h generalizing peak with
  | goesOn => exact ⟨0, _, _, Nat.le_refl 0, .refl _ _⟩
  | returns => cases hr
  | fails _ hh => cases hr; cases hh
  | step hok leads _ le ih =>
    obtain ⟨peak', goes⟩ := leads peak
    obtain ⟨k, pc, f, enough, steps⟩ := ih peak' hr
    exact ⟨k + 1, pc, f, by omega, .step goes steps⟩

end Meets

/-! ## Whole runs -/

namespace Meets

variable {code : Code} {ok : Store → Prop} {n : Nat} {σ₀ : Store}

/-- A result that is met from the start is the outcome of every run with budget enough. -/
theorem run_ok {value : Option Value} {σ : Store} (h : Meets code ok n ⟨0, [], σ₀⟩ (.ok (value, σ)))
    (start : code.start = Point.frame ⟨0, [], σ₀⟩ 0) :
    ∃ enough o, (∀ budget, enough ≤ budget → code.run budget = .ok o) ∧ o.value = value ∧
      o.locals = σ.locals ∧ o.fields = (code.fields.map (·.name)).zip σ.fields.toList := by
  obtain ⟨k, pc, f, steps, ⟨value', f', ends, left⟩ | ⟨halt, fault, failed, -⟩⟩ := h.ends nofun 0
  · cases left
    rw [← start] at steps
    exact ⟨k + 1, _, fun budget le => Code.run_of_finished steps ends le, rfl, rfl, rfl⟩
  · cases failed

/-- A halt that is met from the start is the fault of every run with budget enough. -/
theorem run_error {halt : Halt} {fault : Fault} (h : Meets code ok n ⟨0, [], σ₀⟩ (.error halt))
    (start : code.start = Point.frame ⟨0, [], σ₀⟩ 0) (same : halt.fault? = some fault) :
    ∃ enough, ∀ budget, enough ≤ budget → code.run budget = .error (.fault fault) := by
  have fuel : (.error halt : Result) ≠ .error .outOfFuel := by
    rintro ⟨⟩
    cases same
  obtain ⟨k, pc, f, steps, ⟨value, f', -, ended⟩ | ⟨halt', fault', failed, same', fails⟩⟩ := h.ends fuel 0
  · cases ended
  · cases failed
    rw [same] at same'
    cases same'
    rw [← start] at steps
    exact ⟨k + 1, fun budget le => Code.run_of_failed steps fails le⟩

/-- A budget that evaluation has no result for is not enough. -/
theorem run_outOfBudget (h : Meets code ok n ⟨0, [], σ₀⟩ (.error .outOfFuel))
    (start : code.start = Point.frame ⟨0, [], σ₀⟩ 0) : code.run n = .error (.outOfBudget n) := by
  obtain ⟨k, pc, f, enough, steps⟩ := h.runs 0
  rw [← start] at steps
  exact Code.runFrom_short steps enough

end Meets

/-! ## Single instructions -/

namespace Instr

/-- What an instruction does to a stack and a store. -/
def Does (i : Instr) (stack : List Value) (σ : Store) (flow : Flow) (stack' : List Value) (σ' : Store) : Prop :=
  ∀ peak, ∃ peak', i.exec (σ.frame stack peak) = .ok (flow, σ'.frame stack' peak')

/-- An instruction that fails on a stack and a store. -/
def FailsOn (i : Instr) (stack : List Value) (σ : Store) (fault : Fault) : Prop :=
  ∀ peak, i.exec (σ.frame stack peak) = .error fault

end Instr

section

variable {code : Code} {pc : Nat} {i : Instr} {stack stack' : List Value} {σ σ' : Store}

/-- An instruction that goes on to the next one. -/
theorem Instr.Does.leads_next (does : i.Does stack σ .next stack' σ') (at_pc : code.instrs[pc]? = some i) :
    code.Leads ⟨pc, stack, σ⟩ ⟨pc + 1, stack', σ'⟩ := by
  intro peak
  obtain ⟨peak', run⟩ := does peak
  refine ⟨peak', ?_⟩
  unfold Code.advance
  simp only [at_pc, Frame.step]
  rw [Point.frame, run]
  rfl

theorem Instr.Does.leads_jump {offset : Int32} {target : Nat} (does : i.Does stack σ (.jump offset) stack' σ')
    (at_pc : code.instrs[pc]? = some i) (leads : pc + offset.toInt = target) :
    code.Leads ⟨pc, stack, σ⟩ ⟨target, stack', σ'⟩ := by
  intro peak
  obtain ⟨peak', run⟩ := does peak
  refine ⟨peak', ?_⟩
  unfold Code.advance
  simp only [at_pc, Frame.step]
  rw [Point.frame, run]
  simp only [leads]
  rw [if_neg (by omega)]
  rfl

theorem Instr.FailsOn.fails {fault : Fault} (fails : i.FailsOn stack σ fault)
    (at_pc : code.instrs[pc]? = some i) : code.Fails ⟨pc, stack, σ⟩ fault := by
  intro peak
  unfold Code.advance
  simp only [at_pc, Frame.step]
  rw [Point.frame, fails peak]

end

/-! ## Backwards along the code -/

/-- A property of a number of steps, a point and a result that goes back along instructions: it holds at a
point if it holds where the instruction there leads, and where an instruction fails with the fault of the
result. -/
structure Code.Backward {ε ρ : Type} (code : Code) (ok : Store → Prop) (fault? : ε → Option Fault)
    (W : Nat → Point → Except ε (ρ × Store) → Prop) : Prop where
  mono : ∀ {m n p r}, W n p r → m ≤ n → W m p r
  step : ∀ {m n p p' r}, ok p.store → code.Leads p p' → W n p' r → m ≤ n + 1 → W m p r
  fails : ∀ {n p e fault}, ok p.store → fault? e = some fault → code.Fails p fault → W n p (.error e)

namespace Code.Backward

variable {ε ρ : Type} {code : Code} {ok : Store → Prop} {fault? : ε → Option Fault}
  {W : Nat → Point → Except ε (ρ × Store) → Prop} {n pc : Nat} {i : Instr} {stack stack' : List Value}
  {σ σ' : Store} {r : Except ε (ρ × Store)}

theorem next (back : code.Backward ok fault? W) (at_pc : code.instrs[pc]? = some i)
    (does : i.Does stack σ .next stack' σ') (hok : ok σ) (rest : W n ⟨pc + 1, stack', σ'⟩ r) :
    W n ⟨pc, stack, σ⟩ r :=
  back.step hok (does.leads_next at_pc) rest (Nat.le_succ n)

/-- An instruction that jumps counts as a step. -/
theorem jump (back : code.Backward ok fault? W) {offset : Int32} {target : Nat}
    (at_pc : code.instrs[pc]? = some i) (does : i.Does stack σ (.jump offset) stack' σ')
    (leads : pc + offset.toInt = target) (hok : ok σ) (rest : W (n - 1) ⟨target, stack', σ'⟩ r) :
    W n ⟨pc, stack, σ⟩ r :=
  back.step hok (does.leads_jump at_pc leads) rest (by omega)

theorem branch (back : code.Backward ok fault? W) {b : Bool} {offset : Int32} {target : Nat}
    (at_pc : code.instrs[pc]? = some i) (does : i.Does stack σ (if b then .jump offset else .next) stack' σ)
    (leads : pc + offset.toInt = target) (hok : ok σ)
    (rest : if b then W (n - 1) ⟨target, stack', σ⟩ r else W n ⟨pc + 1, stack', σ⟩ r) :
    W n ⟨pc, stack, σ⟩ r := by
  cases b with
  | true => exact back.jump at_pc does leads hok rest
  | false => exact back.next at_pc does hok rest

theorem fail (back : code.Backward ok fault? W) {e : ε} {fault : Fault} (at_pc : code.instrs[pc]? = some i)
    (fails : i.FailsOn stack σ fault) (same : fault? e = some fault) (hok : ok σ) :
    W n ⟨pc, stack, σ⟩ (.error e) :=
  back.fails hok same (fails.fails at_pc)

end Code.Backward

namespace Meets

variable {code : Code} {ok : Store → Prop} {n pc : Nat} {i : Instr} {stack stack' : List Value}
  {σ σ' : Store} {r : Result}

theorem backward : code.Backward ok Halt.fault? (Meets code ok) where
  mono := mono
  step := .step
  fails := .fails

theorem next (at_pc : code.instrs[pc]? = some i) (does : i.Does stack σ .next stack' σ') (hok : ok σ)
    (rest : Meets code ok n ⟨pc + 1, stack', σ'⟩ r) : Meets code ok n ⟨pc, stack, σ⟩ r :=
  backward.next at_pc does hok rest

theorem jump {offset : Int32} {target : Nat} (at_pc : code.instrs[pc]? = some i)
    (does : i.Does stack σ (.jump offset) stack' σ') (leads : pc + offset.toInt = target) (hok : ok σ)
    (rest : Meets code ok (n - 1) ⟨target, stack', σ'⟩ r) : Meets code ok n ⟨pc, stack, σ⟩ r :=
  backward.jump at_pc does leads hok rest

theorem finish {value : Option Value} (at_pc : code.instrs[pc]? = some i)
    (does : i.Does stack σ (.finish value) stack' σ) (hok : ok σ) :
    Meets code ok n ⟨pc, stack, σ⟩ (.ok (value, σ)) := by
  refine .returns hok fun peak => ?_
  obtain ⟨peak', run⟩ := does peak
  refine ⟨stack', peak', ?_⟩
  unfold Code.advance
  simp only [at_pc, Frame.step]
  rw [Point.frame, run]

end Meets

end Stacklet
