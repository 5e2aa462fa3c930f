import Stacklet.Proofs.Machine.Reach

/-!
# The budget of a run

`Ends n result` says with which instruction a run ends and how, without speaking of a budget: the `n`-th one
returns or fails. A budget of `n` instructions and every greater one give that result, every smaller one is
used up (`Ends.run`); a run that is not cut short by its budget ends so (`run_ends`). Hence a budget decides
whether a run comes to its end and nothing else (`run_budget`).
-/

namespace Stacklet

/-- Whether a run was cut short by its budget. -/
def RunError.isExhaustion : RunError → Bool
  | .outOfBudget _ => true
  | .outside .. | .negativeTarget .. | .fault _ => false

namespace Code

/-- A run that ends with its `n`-th instruction: it returns there or fails there, be it that the instruction
cannot be executed or that there is none. -/
inductive Ends (code : Code) : Nat → Except RunError Outcome → Prop
  | returns {n pc : Nat} {f f' : Frame} {value : Option Value} : code.Steps n 0 code.start pc f →
      code.advance pc f = .ok (.finished value f') → Ends code (n + 1) (.ok (code.outcome value f' (n + 1)))
  | fails {n pc : Nat} {f : Frame} {e : RunError} : code.Steps n 0 code.start pc f →
      code.advance pc f = .error e → Ends code (n + 1) (.error e)

variable {code : Code}

namespace Ends

variable {n : Nat} {result : Except RunError Outcome}

/-- The steps of an outcome are counted up to the instruction that returns. -/
theorem steps_eq {o : Outcome} (h : code.Ends n (.ok o)) : o.steps = n := by
  cases h with
  | returns => rfl

/-- A budget gives the result exactly if it is enough for the instruction that the run ends with. -/
theorem run (h : code.Ends n result) (budget : Nat) :
    code.run budget = if n ≤ budget then result else .error (.outOfBudget budget) := by
  cases h with
  | @returns n _ _ _ _ steps returned =>
    split
    · next enough => exact run_of_finished steps returned enough
    · next short => exact runFrom_short steps (Nat.le_of_not_lt short)
  | @fails n _ _ _ steps failed =>
    split
    · next enough => exact run_of_failed steps failed enough
    · next short => exact runFrom_short steps (Nat.le_of_not_lt short)

end Ends

/-- A run either uses up its budget or ends within it. -/
theorem run_ends (code : Code) (budget : Nat) :
    code.run budget = .error (.outOfBudget budget) ∨ ∃ n ≤ budget, code.Ends n (code.run budget) := by
  unfold run
  rcases runFrom_cases code budget budget 0 code.start with
    short | ⟨n, pc, f, steps, enough, ⟨e, failed, result⟩ | ⟨value, f', returned, result⟩⟩
  · exact .inl short
  · rw [result]
    exact .inr ⟨n + 1, enough, .fails steps failed⟩
  · rw [result, show budget - (budget - (n + 1)) = n + 1 by omega]
    exact .inr ⟨n + 1, enough, .returns steps returned⟩

/-- A run that is not cut short ends within its budget. -/
theorem ends_of_run {budget : Nat} {result : Except RunError Outcome} (h : code.run budget = result)
    (complete : ∀ e, result = .error e → e.isExhaustion = false) : ∃ n ≤ budget, code.Ends n result := by
  rcases code.run_ends budget with short | ends
  · rw [h] at short
    cases complete _ short
  · rwa [h] at ends

/-- A budget decides only whether a run comes to its end. A run that returns does so with its last step, and
one that fails at some instruction fails there: every budget that is enough for that instruction gives the
same result, and every smaller one is used up. So all budgets that are not used up give the same result. -/
theorem run_budget (code : Code) :
    (∀ budget o, code.run budget = .ok o → o.steps ≤ budget ∧
      ∀ other, code.run other = if o.steps ≤ other then .ok o else .error (.outOfBudget other)) ∧
    (∀ budget e, code.run budget = .error e → e.isExhaustion = false →
      ∃ n pc f, n < budget ∧ code.Steps n 0 code.start pc f ∧ code.advance pc f = .error e ∧
        ∀ other, code.run other = if n + 1 ≤ other then .error e else .error (.outOfBudget other)) ∧
    ∀ budget other, (∀ e, code.run budget = .error e → e.isExhaustion = false) →
      (∀ e, code.run other = .error e → e.isExhaustion = false) → code.run budget = code.run other := by
  refine ⟨fun budget o returned => ?_, fun budget e failed complete => ?_, fun budget other whole whole' => ?_⟩
  · obtain ⟨n, enough, ends⟩ := ends_of_run returned fun e absent => by cases absent
    rw [ends.steps_eq]
    exact ⟨enough, ends.run⟩
  · obtain ⟨n, enough, ends⟩ := ends_of_run failed fun e same => by cases same; exact complete
    have runs := ends.run
    cases ends with
    | fails steps fails => exact ⟨_, _, _, enough, steps, fails, runs⟩
  · obtain ⟨n, -, ends⟩ := ends_of_run rfl whole
    obtain ⟨n', -, ends'⟩ := ends_of_run rfl whole'
    -- A budget that is enough for both ends has both results.
    have first := ends.run (max n n')
    have second := ends'.run (max n n')
    rw [if_pos (Nat.le_max_left n n')] at first
    rw [if_pos (Nat.le_max_right n n')] at second
    exact first.symm.trans second

end Code

/-- Code that counts slot 1 down from 2 in a loop and divides by what is left of it if it is told to. -/
def drain (divides : Bool) : Code where
  name := "Drain"
  instrs := #[.iconst 2, .store .int 1, .inc 1 (-1), .load .int 1, .ifZero .ne (-2), .iconst 7, .load .int 1,
    if divides then .arith .div .int else .retValue .int]
  maxStack := 2
  maxLocals := 2
  fields := []

/-- It ends with its eleventh instruction, by a return or by a division by zero. -/
theorem drain_budget :
    (∃ o, (drain false).run 100 = .ok o ∧ o.steps = 11 ∧
      ∀ other, (drain false).run other = if 11 ≤ other then .ok o else .error (.outOfBudget other)) ∧
    (drain true).run 100 = .error (.fault .divisionByZero) ∧
    (∃ n pc f, n < 100 ∧ (drain true).Steps n 0 (drain true).start pc f ∧
      (drain true).advance pc f = .error (.fault .divisionByZero) ∧
      ∀ other, (drain true).run other =
        if n + 1 ≤ other then .error (.fault .divisionByZero) else .error (.outOfBudget other)) ∧
    (drain true).run 11 = (drain true).run 100 := by
  have returned : (drain false).run 100 =
      .ok ⟨some (.int 0), #[some .ref, some (.int 0)], [], 11, 2, 1⟩ := rfl
  have failed (budget : Nat) (enough : budget = 11 ∨ budget = 100) :
      (drain true).run budget = .error (.fault .divisionByZero) := by
    rcases enough with rfl | rfl <;> rfl
  have budgets := (drain true).run_budget
  have whole (budget : Nat) (enough : budget = 11 ∨ budget = 100) (e : RunError)
      (same : (drain true).run budget = .error e) : e.isExhaustion = false := by
    rw [failed budget enough] at same
    cases same
    rfl
  exact ⟨⟨_, returned, rfl, ((drain false).run_budget.1 100 _ returned).2⟩, failed 100 (.inr rfl),
    budgets.2.1 100 _ (failed 100 (.inr rfl)) rfl,
    budgets.2.2 11 100 (whole 11 (.inl rfl)) (whole 100 (.inr rfl))⟩

end Stacklet
