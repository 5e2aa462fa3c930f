import Stacklet.Machine.Run

/-!
# Steps of a run

`Steps n` relates a position and a frame to those that `n` instructions later control has come to.
Execution is deterministic, so that a run is nothing but its steps: `runFrom_cases` says how it may
end, `run_of_finished` and `run_of_failed` what a budget is enough for, and `runFrom_short` what it is not
enough for.
-/

namespace Stacklet.Code

/-- From one position and frame control comes to another by `n` instructions. -/
inductive Steps (code : Code) : Nat → Nat → Frame → Nat → Frame → Prop
  | refl (pc : Nat) (f : Frame) : Steps code 0 pc f pc f
  | step {n pc pc₁ pc' : Nat} {f f₁ f' : Frame} : code.advance pc f = .ok (.running pc₁ f₁) →
      Steps code n pc₁ f₁ pc' f' → Steps code (n + 1) pc f pc' f'

/-- A position and a frame that a run comes to. -/
def Reaches (code : Code) (pc : Nat) (f : Frame) : Prop := ∃ n, code.Steps n 0 code.start pc f

variable {code : Code}

/-- Steps can be cut anywhere. -/
theorem Steps.split {m n pc pc' : Nat} {f f' : Frame} (h : code.Steps (m + n) pc f pc' f') :
    ∃ pc₁ f₁, code.Steps m pc f pc₁ f₁ ∧ code.Steps n pc₁ f₁ pc' f' := by
  induction m generalizing pc f with
  | zero => rw [Nat.zero_add] at h; exact ⟨pc, f, .refl pc f, h⟩
  | succ m ih =>
    rw [Nat.add_right_comm] at h
    cases h with
    | step hs h =>
      obtain ⟨pc₁, f₁, hm, hn⟩ := ih h
      exact ⟨pc₁, f₁, .step hs hm, hn⟩

/-- What every instruction keeps is kept by all steps. -/
theorem Steps.invariant {P : Nat → Frame → Prop}
    (step : ∀ pc f pc' f', P pc f → code.advance pc f = .ok (.running pc' f') → P pc' f')
    {n pc pc' : Nat} {f f' : Frame} (h : code.Steps n pc f pc' f') (start : P pc f) : P pc' f' := by
  induction h with
  | refl => exact start
  | step hs _ ih => exact ih (step _ _ _ _ start hs)

/-- What holds at the start and is kept by every instruction holds wherever a run comes to. -/
theorem Reaches.invariant {P : Nat → Frame → Prop} (start : P 0 code.start)
    (step : ∀ pc f pc' f', P pc f → code.advance pc f = .ok (.running pc' f') → P pc' f')
    {pc : Nat} {f : Frame} (h : code.Reaches pc f) : P pc f := by
  obtain ⟨n, hn⟩ := h
  exact hn.invariant step start

/-- A budget that outlasts some steps goes on after them. -/
theorem runFrom_of_steps {budget left n pc pc' : Nat} {f f' : Frame} (h : code.Steps n pc f pc' f') :
    code.runFrom budget (n + left) pc f = code.runFrom budget left pc' f' := by
  induction h with
  | refl => rw [Nat.zero_add]
  | step hs _ ih => rw [Nat.add_right_comm, runFrom, hs]; exact ih

/-- A budget that does not outlast some steps runs out. -/
theorem runFrom_short {budget left n pc pc' : Nat} {f f' : Frame} (h : code.Steps n pc f pc' f')
    (short : left ≤ n) : code.runFrom budget left pc f = .error (.outOfBudget budget) := by
  obtain ⟨rest, rfl⟩ := Nat.exists_eq_add_of_le short
  obtain ⟨pc₁, f₁, hl, -⟩ := h.split
  exact (runFrom_of_steps hl : code.runFrom budget (left + 0) pc f = code.runFrom budget 0 pc₁ f₁)

/-- A run returns when its budget lasts until it comes to a return. -/
theorem run_of_finished {budget n pc : Nat} {f f' : Frame} {value : Option Value}
    (h : code.Steps n 0 code.start pc f) (ends : code.advance pc f = .ok (.finished value f'))
    (enough : n < budget) : code.run budget = .ok (code.outcome value f' (n + 1)) := by
  obtain ⟨left, rfl⟩ := Nat.exists_eq_add_of_lt enough
  rw [run, Nat.add_assoc n left 1, runFrom_of_steps h, runFrom, ends]
  simp only [show n + (left + 1) - left = n + 1 by omega]

/-- A run fails when its budget lasts until it comes to an instruction that fails. -/
theorem run_of_failed {budget n pc : Nat} {f : Frame} {e : RunError} (h : code.Steps n 0 code.start pc f)
    (fails : code.advance pc f = .error e) (enough : n < budget) : code.run budget = .error e := by
  obtain ⟨left, rfl⟩ := Nat.exists_eq_add_of_lt enough
  rw [run, Nat.add_assoc n left 1, runFrom_of_steps h, runFrom, fails]

/-- How a run may end: its budget runs out, an instruction fails, or one returns. -/
theorem runFrom_cases (code : Code) (budget left pc : Nat) (f : Frame) :
    code.runFrom budget left pc f = .error (.outOfBudget budget) ∨
    ∃ n pc' f', code.Steps n pc f pc' f' ∧ n < left ∧
      ((∃ e, code.advance pc' f' = .error e ∧ code.runFrom budget left pc f = .error e) ∨
       (∃ value f'', code.advance pc' f' = .ok (.finished value f'') ∧
          code.runFrom budget left pc f = .ok (code.outcome value f'' (budget - (left - (n + 1)))))) := by
  induction left generalizing pc f with
  | zero => exact .inl rfl
  | succ left ih =>
    rw [runFrom]
    cases hs : code.advance pc f with
    | error e => exact .inr ⟨0, pc, f, .refl pc f, by omega, .inl ⟨e, hs, rfl⟩⟩
    | ok progress =>
      cases progress with
      | finished value f' => exact .inr ⟨0, pc, f, .refl pc f, by omega, .inr ⟨value, f', hs, rfl⟩⟩
      | running pc₁ f₁ =>
        rcases ih pc₁ f₁ with short | ⟨n, pc', f', hn, lt, ends⟩
        · exact .inl short
        · refine .inr ⟨n + 1, pc', f', .step hs hn, by omega, ?_⟩
          rwa [show left + 1 - (n + 1 + 1) = left - (n + 1) by omega]

/-- A run that fails before its budget is used up fails at an instruction that it comes to. -/
theorem run_eq_error {budget : Nat} {e : RunError} (h : code.run budget = .error e) :
    e = .outOfBudget budget ∨ ∃ pc f, code.Reaches pc f ∧ code.advance pc f = .error e := by
  unfold run at h
  rcases runFrom_cases code budget budget 0 code.start with
    short | ⟨n, pc, f, hn, -, ⟨e', he, hr⟩ | ⟨value, f', -, hr⟩⟩
  · rw [short] at h
    cases h
    exact .inl rfl
  · rw [hr] at h
    cases h
    exact .inr ⟨pc, f, ⟨n, hn⟩, he⟩
  · rw [hr] at h
    cases h

/-- A run that ends does so at a return that it comes to. -/
theorem run_eq_ok {budget : Nat} {o : Outcome} (h : code.run budget = .ok o) :
    ∃ pc f value f', code.Reaches pc f ∧ code.advance pc f = .ok (.finished value f') ∧
      ∃ steps, o = code.outcome value f' steps := by
  unfold run at h
  rcases runFrom_cases code budget budget 0 code.start with
    short | ⟨n, pc, f, hn, -, ⟨e', he, hr⟩ | ⟨value, f', hf, hr⟩⟩
  · rw [short] at h
    cases h
  · rw [hr] at h
    cases h
  · rw [hr] at h
    cases h
    exact ⟨pc, f, value, f', ⟨n, hn⟩, hf, _, rfl⟩

end Stacklet.Code
