import Stacklet.Proofs.Simulation.Expr
import Stacklet.Proofs.Simulation.Loop

/-!
# Statements on the machine

The code of a well-formed statement does what evaluating it does, whatever comes after it
(`Lowers.covered`), and so the code of a program does what the program does (`Lowers.meets_exec`). The
proof follows the rules of lowering; loops are met round by round, and a switch starts at the group that
its dispatch leads to (`PlansAll.leads_to_entry`).
-/

namespace Stacklet.Typed

open Lower

/-! ## Where a switch starts -/

/-- The arm of a case in a group leads in front of the group. -/
theorem Plans.lookup_arms {d d' : Option Label} {labels : List CaseLabel} {n n' : Nat}
    {arms : List (Int32 × Label)} {entry : List Label} (h : Plans d labels n arms entry d' n')
    (value : Int32) :
    match arms.lookup value with
    | some l => labels.contains (.case value) = true ∧ l ∈ entry
    | none => labels.contains (.case value) = false := by
  induction h with
  | nil => rfl
  | @case d v rest n arms entry d' n' _ ih =>
    rw [List.lookup_cons, List.contains_cons]
    by_cases same : value = v
    · subst same
      simp
    · rw [beq_eq_false_iff_ne.2 same, beq_eq_false_iff_ne.2 fun h => same (CaseLabel.case.inj h)]
      cases found : arms.lookup value with
      | none => simpa [found] using ih
      | some l =>
        rw [found] at ih
        exact ⟨ih.1, List.mem_cons_of_mem _ ih.2⟩
  | @newDefault rest n arms entry d' n' _ ih =>
    cases found : arms.lookup value with
    | none => simpa [found] using ih
    | some l =>
      rw [found] at ih
      exact ⟨by simpa using ih.1, List.mem_cons_of_mem _ ih.2⟩
  | @oldDefault l rest n arms entry d' n' _ ih =>
    cases found : arms.lookup value with
    | none => simpa [found] using ih
    | some l =>
      rw [found] at ih
      exact ⟨by simpa using ih.1, List.mem_cons_of_mem _ ih.2⟩

/-- The default label of a switch stays once there is one. -/
theorem Plans.default_kept {d d' : Option Label} {labels : List CaseLabel} {n n' : Nat}
    {arms : List (Int32 × Label)} {entry : List Label} {l : Label} (h : Plans d labels n arms entry d' n')
    (old : d = some l) : d' = some l := by
  induction h with
  | nil => exact old
  | case _ ih => exact ih old
  | newDefault => cases old
  | oldDefault _ ih => exact ih old

/-- The first default label stands in front of a group that has a default. -/
theorem Plans.default_made {d d' : Option Label} {labels : List CaseLabel} {n n' : Nat}
    {arms : List (Int32 × Label)} {entry : List Label} (h : Plans d labels n arms entry d' n')
    (new : d = none) :
    match d' with
    | some l => labels.contains .otherwise = true ∧ l ∈ entry
    | none => labels.contains .otherwise = false := by
  induction h with
  | nil => rw [new]; rfl
  | @case d v rest n arms entry d' n' _ ih =>
    have ih := ih new
    cases d' with
    | none => simpa using ih
    | some l => exact ⟨by simpa using ih.1, List.mem_cons_of_mem _ ih.2⟩
  | @newDefault rest n arms entry d' n' others =>
    obtain rfl : d' = some ⟨n⟩ := others.default_kept rfl
    exact ⟨rfl, List.mem_cons_self⟩
  | oldDefault => cases new

namespace PlansAll

variable {d : Option Label} {groups : List (SwitchGroup CaseLabel Stmt)} {n n' : Nat} {plan : SwitchPlan}

theorem lookup_arms (h : PlansAll d groups n plan n') (value : Int32) :
    match plan.arms.lookup value with
    | some l => ∃ k, groups.findIdx? (·.labels.contains (.case value)) = some k ∧
        l ∈ plan.entries[k]?.getD []
    | none => groups.findIdx? (·.labels.contains (.case value)) = none := by
  induction h with
  | nil => rfl
  | @cons d group rest n arms entry d' n₁ plan n' plans _ ih =>
    have here := plans.lookup_arms value
    rw [List.lookup_append, List.findIdx?_cons]
    cases first : arms.lookup value with
    | some l =>
      rw [first] at here
      rw [here.1, if_pos rfl]
      exact ⟨0, rfl, here.2⟩
    | none =>
      rw [first] at here
      rw [here, if_neg Bool.false_ne_true, Option.none_or]
      cases later : plan.arms.lookup value with
      | some l =>
        rw [later] at ih
        obtain ⟨k, found, mem⟩ := ih
        rw [found]
        exact ⟨k + 1, rfl, mem⟩
      | none =>
        rw [later] at ih
        rw [show rest.findIdx? _ = none from ih]
        rfl

theorem default_kept {l : Label} (h : PlansAll d groups n plan n') (old : d = some l) :
    plan.default? = some l := by
  induction h with
  | nil => exact old
  | cons plans _ ih => exact ih (plans.default_kept old)

theorem default_made (h : PlansAll d groups n plan n') (new : d = none) :
    match plan.default? with
    | some l => ∃ k, groups.findIdx? hasDefault = some k ∧ l ∈ plan.entries[k]?.getD []
    | none => groups.findIdx? hasDefault = none := by
  induction h with
  | nil => rw [new]; rfl
  | @cons d group rest n arms entry d' n₁ plan n' plans others ih =>
    have here := plans.default_made new
    rw [List.findIdx?_cons, hasDefault]
    cases d' with
    | some l =>
      rw [here.1, if_pos rfl, others.default_kept rfl]
      exact ⟨0, rfl, here.2⟩
    | none =>
      have ih := ih rfl
      rw [show group.labels.contains .otherwise = false from here, if_neg Bool.false_ne_true]
      cases later : plan.default? with
      | some l =>
        rw [later] at ih
        obtain ⟨k, found, mem⟩ := ih
        rw [found]
        exact ⟨k + 1, rfl, mem⟩
      | none =>
        rw [later] at ih
        rw [show rest.findIdx? _ = none from ih]
        rfl

/-- The dispatch of a switch leads in front of the group in which the switch starts, or past it. -/
theorem leads_to_entry (h : PlansAll none groups n plan n') (value : Int32) (done : Label) :
    match groupFor? value groups with
    | some k => k < groups.length ∧
        (plan.arms.lookup value).getD (plan.default?.getD done) ∈ plan.entries[k]?.getD []
    | none => (plan.arms.lookup value).getD (plan.default?.getD done) = done := by
  have cases := h.lookup_arms value
  have default := h.default_made rfl
  rw [groupFor?]
  cases arm : plan.arms.lookup value with
  | some l =>
    rw [arm] at cases
    obtain ⟨k, found, mem⟩ := cases
    rw [found]
    exact ⟨(List.findIdx?_eq_some_iff_getElem.1 found).1, mem⟩
  | none =>
    rw [arm] at cases
    rw [show groups.findIdx? _ = none from cases]
    cases other : plan.default? with
    | some l =>
      rw [other] at default
      obtain ⟨k, found, mem⟩ := default
      rw [found]
      exact ⟨(List.findIdx?_eq_some_iff_getElem.1 found).1, mem⟩
    | none =>
      rw [other] at default
      rw [show groups.findIdx? _ = none from default]
      rfl

end PlansAll

/-! ## Targets -/

/-- Whether a piece may stand in some surroundings. -/
def Piece.WellFormed (known : Place → Prop) (env : Surroundings) : Piece → Prop
  | .stmt t => t.WellFormed known env
  | .all ts => Stmt.AllWellFormed known env ts
  | .option t => Stmt.OptionWellFormed known env t
  | .groups _ gs => Stmt.GroupsWellFormed known env gs

/-- What is kept inside a construct is kept around it. -/
theorem lookup_outer {env : Surroundings} {construct : Construct} {target : Target} {ex : Exits}
    {targets targets' : List (Target × Exits)} (fresh : IsFresh env target)
    (kept : ∀ e ∈ (env.enter construct target).jumps,
      targets'.lookup e.target = ((target, ex) :: targets).lookup e.target) :
    ∀ e ∈ env.jumps, targets'.lookup e.target = targets.lookup e.target := by
  intro e mem
  rw [kept e (List.mem_cons_of_mem _ mem), List.lookup_cons, beq_eq_false_iff_ne.2 (fresh e mem)]

/-- Lowering a piece keeps the exits of the constructs around it. -/
theorem Lowers.lookup_target {known : Place → Prop} {env : Surroundings} {piece : Piece} {s s' : LowerState}
    {cs : List Call} (h : Lowers piece s cs s') (wf : piece.WellFormed known env) :
    ∀ e ∈ env.jumps, s'.targets.lookup e.target = s.targets.lookup e.target := by
  induction h generalizing env with
  | block _ ih => exact ih wf
  | ifThen _ _ ih => exact ih wf.2
  | ifElse _ _ _ iht ihe => exact fun e mem => (ihe wf.2.2 e mem).trans (iht wf.2.1 e mem)
  | whileDo _ _ ih => exact lookup_outer wf.2.1 (ih wf.2.2)
  | doWhile _ _ ih => exact lookup_outer wf.2.1 (ih wf.2.2)
  | forLoop _ _ _ _ ihi ihb ihu =>
    obtain ⟨init, -, fresh, update, body⟩ := wf
    have inside := fun e mem => (ihu update e mem).trans (ihb body e mem)
    exact fun e mem => (lookup_outer fresh inside e mem).trans (ihi init e mem)
  | switch _ _ _ ih => exact lookup_outer wf.2.2.1 (ih wf.2.2.2.2)
  | cons _ _ iht ihr => exact fun e mem => (ihr wf.2 e mem).trans (iht wf.1 e mem)
  | present _ ih => exact ih wf
  | group _ _ ihs ihr => exact fun e mem => (ihr wf.2 e mem).trans (ihs wf.1 e mem)
  | _ => exact fun _ _ => rfl

/-! ## Statements -/

variable {code : Code} {position : Label → Nat} {layout : Layout} {env : Surroundings} {n pc fuel : Nat}
  {σ : Store}

theorem codeSize_makeLabels (m m' : Nat) : codeSize (makeLabels m m') = 0 := by
  rw [makeLabels]
  induction m' - m with
  | zero => rfl
  | succ k ih => rw [List.replicate_succ, codeSize_cons, ih]; rfl

theorem codeSize_binds (ls : List Label) : codeSize (ls.map .bind) = 0 := by
  induction ls with
  | nil => rfl
  | cons l ls ih => rw [List.map_cons, codeSize_cons, ih]; rfl

theorem position_of_placed_binds {instrs : Array Instr} {ls : List Label}
    (placed : Placed instrs position pc (ls.map .bind)) : ∀ l ∈ ls, position l = pc := by
  induction ls with
  | nil => nofun
  | cons l ls ih =>
    intro l' mem
    rcases List.mem_cons.1 mem with rfl | later
    · exact placed.1
    · exact ih placed.2 l' later

section Loops

variable {l : Loop} {c : Expr} {top again done : Label} {test m m' : Nat} {cs : List Call}
  {targets : List (Target × Exits)} (fresh : IsFresh env l.target) (tests : l.test = c.test)
  (condition : c.IsCondition layout.Knows)

include fresh tests condition

/-- A loop with its test in front of its body, which ends with a jump back. -/
theorem run_implements_front {stop : Nat} (emits : Emits c (.branch done false) m cs m')
    (placed : Placed code.instrs position (position again) cs)
    (body : Implements code position layout.Fits fuel ((l.target, ⟨done, some again⟩) :: targets)
      (env.enter .loop l.target).jumps (position again + codeSize cs) stop l.body)
    (update : l.update = pure .normal)
    (back : Call.Stands code.instrs position stop (.jump .goto again)) :
    Implements code position layout.Fits fuel targets env.jumps (position again) (position done)
      (l.run fuel fuel) := by
  intro m K le outer ends
  refine Loop.run_meets (fun m' next le' goes σ fits => ?_) (Nat.le_refl m) le
  have outer := outer.mono le'
  have ends := fun σ fits => (ends σ fits).mono le'
  -- The update does nothing: after the body the loop goes on at its test.
  have idle : Implements code position layout.Fits fuel ((l.target, ⟨done, some again⟩) :: targets)
      (env.enter .loop l.target).jumps (position again) (position again) l.update := by
    rw [update]
    exact .normal
  have enough : m' - 1 ≤ fuel := by omega
  have updated := Loop.runUpdate_meets fresh idle (outer.mono (Nat.sub_le m' 1))
    (fun σ fits => (ends σ fits).mono (Nat.sub_le m' 1)) goes enough enough
  rw [tests]
  refine emits.test_meets condition placed (fun σ fits => (ends σ fits).mono (Nat.sub_le m' 1)) ?_ fits
  refine Loop.pass_meets fresh body outer ends updated (fun σ fits => ?_) (by omega)
  obtain ⟨offset, at_stop, leads⟩ := back
  exact .jump at_stop Instr.does_goto leads fits (updated σ fits)

variable (emits : Emits c (.branch top true) m cs m') (placed : Placed code.instrs position test cs)
  (body : Implements code position layout.Fits fuel ((l.target, ⟨done, some again⟩) :: targets)
    (env.enter .loop l.target).jumps (position top) (position again) l.body)
  (update : Implements code position layout.Fits fuel ((l.target, ⟨done, some again⟩) :: targets)
    (env.enter .loop l.target).jumps (position again) test l.update)
  (past : position done = test + codeSize cs)

include body update

omit tests condition in
/-- A pass through a loop with its test behind its update. -/
theorem pass_meets_back {K : Exit → Eval (Option Value)} {next : Eval Exit}
    (outer : Escapes code position layout.Fits n targets env.jumps K)
    (ends : ∀ σ, layout.Fits σ → Meets code layout.Fits n ⟨position done, [], σ⟩ (K .normal σ))
    (goes : ∀ σ, layout.Fits σ → Meets code layout.Fits n ⟨test, [], σ⟩ ((next >>= K) σ)) (le : n ≤ fuel) :
    ∀ σ, layout.Fits σ → Meets code layout.Fits n ⟨position top, [], σ⟩ ((l.pass fuel next >>= K) σ) := by
  have updated := Loop.runUpdate_meets fresh update outer ends goes le le
  exact Loop.pass_meets fresh body outer ends (fun σ fits => (updated σ fits).mono (Nat.sub_le n 1)) updated le

include emits placed past

/-- A loop with its test behind its update. -/
theorem run_implements_back :
    Implements code position layout.Fits fuel targets env.jumps test (position done) (l.run fuel fuel) := by
  intro m K le outer ends
  refine Loop.run_meets (fun m' next le' goes σ fits => ?_) (Nat.le_refl m) le
  rw [tests]
  refine emits.test_meets condition placed ?_ (fun σ fits => ?_) fits
  · have le'' : m' - 1 ≤ m := by omega
    exact pass_meets_back fresh body update (outer.mono le'') (fun σ fits => (ends σ fits).mono le'')
      goes (Nat.le_trans le'' le)
  · rw [← past]
    exact (ends σ fits).mono le'

end Loops

section Constructs

variable {line : Line} {c : Expr} {t e : Stmt} {m m' middle : Nat} {cs : List Call}
  {targets : List (Target × Exits)}

/-- A declaration writes the value of its local. -/
theorem define_implements {var : LocalVar} {init : Expr} (known : layout.Knows (.ofLocal var))
    (typed : init.WellTyped layout.Knows) (same : init.ty = var.ty) (emits : Emits init .value m cs m')
    (placed : Placed code.instrs position pc (cs ++ [.add (.store var.ty.storage var.slot)])) :
    Implements code position layout.Fits fuel targets env.jumps pc
      (pc + codeSize (cs ++ [.add (.store var.ty.storage var.slot)]))
      (Stmt.exec fuel (.declare line var (some init))) := by
  obtain ⟨placed, stored⟩ := placed_append.1 placed
  intro m K le escapes normal σ fits
  rw [Stmt.exec, bind_assoc]
  refine emits.meets typed trivial placed fits fun v σ hasTy fits => ?_
  rw [same] at hasTy
  rw [codeSize_append, ← Nat.add_assoc] at normal
  exact Place.store_meets known fits hasTy stored (normal _ (fits.write known hasTy))

/-- A value that is returned leaves the program. -/
theorem return_implements {value : Expr} {stop : Nat} (typed : value.WellTyped layout.Knows)
    (emits : Emits value .value m cs m')
    (placed : Placed code.instrs position pc (cs ++ [.add (.retValue value.ty.storage)])) :
    Implements code position layout.Fits fuel targets env.jumps pc stop (Stmt.exec fuel (.ret line (some value))) := by
  obtain ⟨placed, ⟨at_ret, -⟩⟩ := placed_append.1 placed
  intro m K le escapes normal σ fits
  rw [Stmt.exec, bind_assoc]
  refine emits.meets typed trivial placed fits fun v σ hasTy fits => ?_
  rw [pure_bind, escapes.returns]
  exact .finish at_ret (Instr.does_retValue hasTy.kind) fits

/-- A `continue` jumps to where its loop goes on. -/
theorem continue_implements {outer : Enclosing} {ex : Exits} {l : Label} {stop : Nat} (mem : outer ∈ env.jumps)
    (loop : outer.construct = .loop) (found : targets.lookup outer.target = some ex)
    (goesOn : ex.continueLabel = some l) (stands : Call.Stands code.instrs position pc (.jump .goto l)) :
    Implements code position layout.Fits fuel targets env.jumps pc stop
      (Stmt.exec fuel (.continueLoop line (some outer.target))) := by
  intro m K le escapes normal σ fits
  obtain ⟨offset, at_pc, leads⟩ := stands
  obtain ⟨l', goesOn', met⟩ := escapes.continues mem loop found
  cases goesOn.symm.trans goesOn'
  exact .jump at_pc Instr.does_goto leads fits (met σ fits)

/-- An `if` without an `else` is passed by if its condition does not hold. -/
theorem ifThen_implements {done : Label} (condition : c.IsCondition layout.Knows)
    (emits : Emits c (.branch done false) m cs m') (placed : Placed code.instrs position pc cs)
    (body : Implements code position layout.Fits fuel targets env.jumps (pc + codeSize cs) (position done)
      (t.exec fuel)) :
    Implements code position layout.Fits fuel targets env.jumps pc (position done)
      (Stmt.exec fuel (.ifElse line c t none)) := by
  intro m K le escapes normal σ fits
  rw [Stmt.exec, bind_assoc]
  refine emits.test_meets condition placed (fun σ fits => ?_) ?_ fits
  · exact (normal σ fits).mono (Nat.sub_le m 1)
  · exact body m K le escapes normal

/-- One with an `else` goes there, and passes by it behind its first part. -/
theorem ifElse_implements {other done : Label} (condition : c.IsCondition layout.Knows)
    (emits : Emits c (.branch other false) m cs m') (placed : Placed code.instrs position pc cs)
    (yes : Implements code position layout.Fits fuel targets env.jumps (pc + codeSize cs) middle (t.exec fuel))
    (passes : Call.Stands code.instrs position middle (.jump .goto done))
    (no : Implements code position layout.Fits fuel targets env.jumps (position other) (position done)
      (e.exec fuel)) :
    Implements code position layout.Fits fuel targets env.jumps pc (position done)
      (Stmt.exec fuel (.ifElse line c t (some e))) := by
  intro m K le escapes normal σ fits
  have normal' := fun σ fits => (normal σ fits).mono (Nat.sub_le m 1)
  rw [Stmt.exec, bind_assoc]
  refine emits.test_meets condition placed (fun σ fits => ?_) ?_ fits
  · exact no (m - 1) K (by omega) (escapes.mono (Nat.sub_le m 1)) normal' σ fits
  · refine yes m K le escapes fun σ fits => ?_
    obtain ⟨offset, at_goto, leads⟩ := passes
    exact .jump at_goto Instr.does_goto leads fits (normal' σ fits)

section

variable {target : Target} {top again test done : Label} (fresh : IsFresh env target)

include fresh

/-- A `do` starts with its body, behind which it is a loop with its test in front. -/
theorem doWhile_implements {body : Stmt} (condition : c.IsCondition layout.Knows)
    (inside : Implements code position layout.Fits fuel ((target, ⟨done, some again⟩) :: targets)
      (env.enter .loop target).jumps (position top) (position again) (body.exec fuel))
    (emits : Emits c (.branch top true) m cs m') (placed : Placed code.instrs position (position again) cs)
    (past : position done = position again + codeSize cs) :
    Implements code position layout.Fits fuel targets env.jumps (position top) (position done)
      (Stmt.exec fuel (.doWhile line target body c)) := by
  intro m K le outer ends
  let l : Loop := ⟨target, c.test, body.exec fuel, pure .normal⟩
  have goes := run_implements_back (l := l) fresh rfl condition emits placed inside .normal past m K le outer ends
  exact pass_meets_back (l := l) fresh inside .normal outer ends goes le

/-- A `for` goes from its start to its test, which stands behind the update. -/
theorem forLoop_implements {init update : List Stmt} {c : Option Expr} {body : Option Stmt}
    (tested : ∀ e ∈ c, e.IsCondition layout.Knows)
    (before : Implements code position layout.Fits fuel targets env.jumps pc middle (Stmt.execAll fuel init))
    (enters : Call.Stands code.instrs position middle (.jump .goto test))
    (inside : Implements code position layout.Fits fuel ((target, ⟨done, some again⟩) :: targets)
      (env.enter .loop target).jumps (position top) (position again) (Stmt.execOption fuel body))
    (updates : Implements code position layout.Fits fuel ((target, ⟨done, some again⟩) :: targets)
      (env.enter .loop target).jumps (position again) (position test) (Stmt.execAll fuel update))
    (emits : Emits (c.getD .always) (.branch top true) m cs m')
    (placed : Placed code.instrs position (position test) cs) (past : position done = position test + codeSize cs) :
    Implements code position layout.Fits fuel targets env.jumps pc (position done)
      (Stmt.exec fuel (.forLoop line target init c update body)) := by
  have condition : (c.getD .always).IsCondition layout.Knows := by
    cases c with
    | none => exact ⟨rfl, rfl⟩
    | some c => exact tested c rfl
  have loop := run_implements_back (l := ⟨target, (c.getD .always).test, Stmt.execOption fuel body,
    Stmt.execAll fuel update⟩) fresh rfl condition emits placed inside updates past
  have all := before.andThen (loop.goto enters)
  cases c <;> exact all

end

end Constructs

/-- The code from one position to another does what a piece does. The groups of a switch may be entered at
the first of them, or at a label in front of any. -/
def Piece.Covered (code : Code) (position : Label → Nat) (layout : Layout) (fuel : Nat)
    (targets : List (Target × Exits)) (jumps : JumpScope) (pc stop : Nat) : Piece → Prop
  | .stmt t => Implements code position layout.Fits fuel targets jumps pc stop (t.exec fuel)
  | .all ts => Implements code position layout.Fits fuel targets jumps pc stop (Stmt.execAll fuel ts)
  | .option t => Implements code position layout.Fits fuel targets jumps pc stop (Stmt.execOption fuel t)
  | .groups entries gs => ∀ k start,
    (k = 0 ∧ start = pc ∨ k < gs.length ∧ ∃ l ∈ entries[k]?.getD [], start = position l) →
    Implements code position layout.Fits fuel targets jumps start stop (Stmt.execGroups fuel k gs)

/-- A switch enters its groups where its dispatch leads. -/
theorem switch_implements {line : Line} {target : Target} {d : Expr}
    {groups : List (SwitchGroup CaseLabel Stmt)} {plan : SwitchPlan} {m m' labels labels' inner : Nat}
    {done : Label} {cs : List Call} {targets : List (Target × Exits)} (fresh : IsFresh env target)
    (emits : Emits d .value m cs m') (typed : d.WellTyped layout.Knows) (int : d.ty = .int)
    (plans : PlansAll none groups labels plan labels') (placed : Placed code.instrs position pc cs)
    (switches : Call.Stands code.instrs position (pc + codeSize cs)
      (.switch (plan.arms.map (·.1)) (plan.arms.map (·.2)) (plan.default?.getD done)))
    (inside : Piece.Covered code position layout fuel ((target, ⟨done, none⟩) :: targets)
      (env.enter .switch target).jumps inner (position done) (.groups plan.entries groups)) :
    Implements code position layout.Fits fuel targets env.jumps pc (position done)
      (Stmt.exec fuel (.switch line target d groups)) := by
  intro m K le outer ends σ fits
  rw [Stmt.exec, bind_assoc]
  refine emits.meets typed trivial placed fits fun v σ hasTy fits => ?_
  obtain ⟨i, at_pc, switches⟩ := switches
  rw [int] at hasTy
  obtain ⟨x, rfl⟩ := Value.exists_of_kind hasTy.kind
  obtain ⟨offset, chosen, leads⟩ := switches.chosen x
  refine .jump at_pc (Instr.does_switch chosen) leads fits ?_
  have zipped : (plan.arms.map (·.1)).zip (plan.arms.map (·.2)) = plan.arms :=
    (List.zip_of_prod rfl rfl).symm
  have entry := plans.leads_to_entry x done
  rw [zipped, show (Value.int x).asInt = x from rfl]
  cases found : groupFor? x groups with
  | none =>
    rw [found] at entry
    rw [show _ = done from entry]
    exact (ends σ fits).mono (Nat.sub_le m 1)
  | some k =>
    rw [found] at entry
    have le' : m - 1 ≤ m := Nat.sub_le m 1
    have groups := inside k _ (.inr ⟨entry.1, _, entry.2, rfl⟩)
    simp only [bind_assoc, pure_bind]
    refine groups (m - 1) _ (Nat.le_trans le' le) ((outer.mono le').enter fresh ?_ nofun ?_ ?_ ?_) ?_ σ fits
    · intro σ fits
      rw [Exit.out_self]
      exact (ends σ fits).mono (by omega)
    · intro t ne
      rw [Exit.out_of_ne ne]
    · exact fun _ _ => rfl
    · exact fun _ => rfl
    · exact fun σ fits => (ends σ fits).mono le'

/-- The groups of a switch from one of them on: falling into it and jumping to one of its labels come to the same
position. -/
theorem group_covered {entries : List (List Label)} {labels : List CaseLabel} {stmts : List Stmt}
    {rest : List (SwitchGroup CaseLabel Stmt)} {targets : List (Target × Exits)} {middle stop : Nat}
    (bound : Placed code.instrs position pc ((entries.headD []).map .bind))
    (here : Implements code position layout.Fits fuel targets env.jumps pc middle (Stmt.execAll fuel stmts))
    (later : Piece.Covered code position layout fuel targets env.jumps middle stop (.groups entries.tail rest)) :
    Piece.Covered code position layout fuel targets env.jumps pc stop
      (.groups entries (⟨labels, stmts⟩ :: rest)) := by
  rintro k start at_k
  cases k with
  | zero =>
    have front : start = pc := by
      obtain ⟨-, rfl⟩ | ⟨-, l, mem, rfl⟩ := at_k
      · rfl
      · refine position_of_placed_binds bound l ?_
        cases entries <;> exact mem
    rw [front]
    exact here.andThen (later 0 _ (.inl ⟨rfl, rfl⟩))
  | succ k =>
    obtain ⟨none, -⟩ | ⟨inside, l, mem, rfl⟩ := at_k
    · cases none
    · refine later k _ (.inr ⟨Nat.lt_of_succ_lt_succ inside, l, ?_, rfl⟩)
      cases entries <;> exact mem

/-- What covers a piece does so for targets that its jumps cannot tell apart. -/
theorem Piece.Covered.congr {piece : Piece} {targets targets' : List (Target × Exits)} {jumps : JumpScope} {stop : Nat}
    (h : piece.Covered code position layout fuel targets jumps pc stop)
    (same : ∀ e ∈ jumps, targets'.lookup e.target = targets.lookup e.target) :
    piece.Covered code position layout fuel targets' jumps pc stop := by
  cases piece with
  | groups => exact fun k start at_k => Implements.congr (h k start at_k) same
  | stmt | all | option => exact Implements.congr h same

/-- The code of a well-formed piece does what evaluating it does. -/
theorem Lowers.covered {piece : Piece} {s s' : LowerState} {cs : List Call} (h : Lowers piece s cs s')
    (wf : piece.WellFormed layout.Knows env) (placed : Placed code.instrs position pc cs) :
    piece.Covered code position layout fuel s.targets env.jumps pc (pc + codeSize cs) := by
  induction h generalizing env pc with
  | block _ ih => exact ih wf placed
  | declare => exact .normal
  | @define line var init s cs n emits =>
    obtain ⟨known, typed, same⟩ := wf
    exact define_implements known typed same emits placed
  | @expr line e s cs n emits =>
    intro m K le escapes normal σ fits
    rw [Stmt.exec, bind_assoc]
    exact emits.meets wf trivial placed fits fun v σ fits => normal σ fits
  | @ifThen line c t s cs n cs' s' emits _ ih =>
    obtain ⟨condition, body⟩ := wf
    simp only [Placed, Call.Stands, Call.width, placed_append, Nat.add_zero, true_and, and_true] at placed
    simp only [codeSize_append, codeSize_cons, codeSize_nil, Call.width, Nat.zero_add, Nat.add_zero,
      ← Nat.add_assoc]
    obtain ⟨placed, placed', past⟩ := placed
    have covered := ih body placed'
    rw [← past] at covered ⊢
    exact ifThen_implements condition emits placed covered
  | @ifElse line c t e s cs n cs₁ s₁ cs₂ s' emits first _ iht ihe =>
    obtain ⟨condition, yes, no⟩ := wf
    simp only [Placed, Call.Stands, Call.width, placed_append, Nat.add_zero, true_and, and_true] at placed
    simp only [codeSize_append, codeSize_cons, codeSize_nil, Call.width, Nat.zero_add, Nat.add_zero,
      ← Nat.add_assoc]
    obtain ⟨placed, placed₁, passes, other, placed₂, past⟩ := placed
    rw [← other] at placed₂ past
    -- Lowering the first branch has registered targets, but none that the second could jump to.
    have second := Implements.congr (ihe no placed₂) fun e mem => (first.lookup_target yes e mem).symm
    rw [← past] at second
    rw [← other, ← past]
    exact ifElse_implements condition emits placed (iht yes placed₁) passes second
  | @whileDo line target c body s cs n cs' s' emits _ ih =>
    obtain ⟨condition, fresh, inside⟩ := wf
    simp only [Placed, Call.width, placed_append, Nat.add_zero, and_true] at placed
    simp only [codeSize_append, codeSize_cons, codeSize_nil, Call.width, Nat.zero_add, Nat.add_zero,
      ← Nat.add_assoc]
    obtain ⟨-, -, top, placed, placed', back, past⟩ := placed
    obtain rfl : position ⟨s.labels⟩ = pc := top
    rw [← show position ⟨s.labels + 1⟩ = _ from past]
    exact run_implements_front (l := ⟨target, c.test, body.exec fuel, pure .normal⟩) fresh rfl condition emits
      placed (ih inside placed') rfl back
  | @doWhile line target body c s cs s₁ cs' n _ emits ih =>
    obtain ⟨condition, fresh, inside⟩ := wf
    simp only [Placed, Call.Stands, Call.width, placed_append, Nat.add_zero, true_and, and_true] at placed
    simp only [codeSize_append, codeSize_cons, codeSize_nil, Call.width, Nat.zero_add, Nat.add_zero,
      ← Nat.add_assoc]
    obtain ⟨top, placed, again, placed', past⟩ := placed
    obtain rfl := top
    rw [← past]
    have covered := ih inside placed
    rw [← again] at placed' past covered
    exact doWhile_implements fresh condition covered emits placed' past
  | @forLoop line target init c update body s cs₀ s₀ cs₁ s₁ cs₂ s₂ cs₃ n first second _ emits ihi ihb ihu =>
    obtain ⟨before, tested, fresh, updates, inside⟩ := wf
    simp only [Placed, Call.Stands, Call.width, placed_append, Nat.add_zero, true_and, and_true] at placed
    simp only [codeSize_append, codeSize_cons, codeSize_nil, Call.width, Nat.zero_add, Nat.add_zero,
      ← Nat.add_assoc]
    obtain ⟨placed₀, enters, top, placed₁, again, placed₂, test, placed₃, past⟩ := placed
    -- From here on the parts stand at their labels, not at sums of sizes.
    rw [← past]
    rw [← top] at placed₁ again placed₂ test placed₃ past
    rw [← again] at placed₂ test placed₃ past
    rw [← test] at placed₃ past
    have bodyCode := ihb inside placed₁
    have updateCode := Implements.congr (ihu updates placed₂) fun e mem =>
      (second.lookup_target inside e mem).symm
    rw [← again] at bodyCode
    rw [← test] at updateCode
    have initCode := Implements.congr (ihi before placed₀) (first.lookup_target before)
    exact Implements.congr (forLoop_implements fresh tested initCode enters bodyCode updateCode emits placed₃ past)
      fun e mem => (first.lookup_target before e mem).symm
  | @switch line target d groups s cs n plan n₁ cs' s' emits plans _ ih =>
    obtain ⟨typed, int, fresh, -, inside⟩ := wf
    simp only [Placed, Call.width, placed_append, codeSize_makeLabels, Nat.add_zero, and_true] at placed
    simp only [codeSize_append, codeSize_cons, codeSize_nil, codeSize_makeLabels, Call.width, Nat.zero_add,
      Nat.add_zero, ← Nat.add_assoc]
    obtain ⟨placed, -, -, switches, placed', past⟩ := placed
    have covered := ih inside placed'
    rw [← show position ⟨n⟩ = _ from past] at covered ⊢
    exact switch_implements fresh emits typed int plans placed switches covered
  | strayBreak =>
    obtain ⟨e, -, none⟩ := wf
    cases none
  | breakOut found =>
    obtain ⟨e, mem, same⟩ := wf
    cases same
    obtain ⟨offset, at_pc, leads⟩ := placed.1
    intro m K le escapes normal σ fits
    exact .jump at_pc Instr.does_goto leads fits (escapes.breaks mem found fits)
  | strayContinue =>
    obtain ⟨e, -, -, none⟩ := wf
    cases none
  | continueLoop found hl =>
    obtain ⟨e, mem, loop, same⟩ := wf
    cases same
    exact continue_implements mem loop found hl placed.1
  | continueSwitch found none =>
    obtain ⟨e, mem, loop, same⟩ := wf
    cases same
    intro m K le escapes normal σ fits
    obtain ⟨l, hl, -⟩ := escapes.continues mem loop found
    rw [none] at hl
    cases hl
  | ret =>
    intro m K le escapes normal σ fits
    change Meets _ _ _ _ (K (.returns none) σ)
    rw [escapes.returns]
    exact .finish placed.1 Instr.does_ret fits
  | @retValue line value s cs n emits =>
    exact return_implements wf.1 emits placed
  | empty => exact .normal
  | nil => exact .normal
  | cons first _ iht ihr =>
    obtain ⟨placed, placed'⟩ := placed_append.1 placed
    rw [codeSize_append, ← Nat.add_assoc]
    have after := ihr wf.2 placed'
    exact (iht wf.1 placed).andThen (after.congr fun e mem => (first.lookup_target wf.1 e mem).symm)
  | absent => exact .normal
  | present _ ih => exact ih wf placed
  | noGroups =>
    rintro k start (⟨rfl, rfl⟩ | ⟨none, -⟩)
    · exact .normal
    · cases none
  | @group entries labels stmts rest s cs s₁ cs' s' first _ ihs ihr =>
    obtain ⟨bound, placed⟩ := placed_append.1 placed
    rw [codeSize_binds] at placed
    obtain ⟨placed, placed'⟩ := placed_append.1 placed
    rw [codeSize_append, codeSize_append, codeSize_binds, Nat.zero_add, ← Nat.add_assoc]
    have later := (ihr wf.2 placed').congr fun e mem => (first.lookup_target wf.1 e mem).symm
    exact group_covered bound (ihs wf.1 placed) later

/-! ## Programs -/

/-- What a program gives back when its body ends. -/
def Program.ending : Exit → Eval (Option Value)
  | .returns value => pure value
  | _ => pure none

theorem Program.exec_eq (p : Program) :
    p.exec fuel = (Stmt.execAll fuel p.body >>= Program.ending) p.start := by
  rw [exec]
  change _ = Stmt.execAll fuel p.body p.start >>= fun (exit, σ) => Program.ending exit σ
  congr 1
  funext ⟨exit, σ⟩
  cases exit <;> rfl

/-- The code of a program does what the program does: a body that ends without a return comes to the
return behind it. -/
theorem Lowers.meets_exec {p : Program} {s : LowerState} {cs : List Call}
    (h : Lowers (.all p.body) ⟨0, []⟩ cs s)
    (wf : Stmt.AllWellFormed layout.Knows ⟨p.returns, []⟩ p.body)
    (placed : Placed code.instrs position 0 (cs ++ [.add .ret])) (fits : layout.Fits p.start) :
    Meets code layout.Fits fuel ⟨0, [], p.start⟩ (p.exec fuel) := by
  obtain ⟨placed, ⟨at_ret, -⟩⟩ := placed_append.1 placed
  rw [Program.exec_eq]
  refine h.covered wf placed fuel _ (Nat.le_refl fuel) ⟨nofun, nofun, ?_⟩ ?_ _ fits
  · exact fun _ => rfl
  · exact fun σ fits => .finish at_ret Instr.does_ret fits

end Stacklet.Typed
