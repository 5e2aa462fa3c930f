import Stacklet.Proofs.Assembly.Depth
import Stacklet.Proofs.Machine.Effect
import Stacklet.Proofs.Machine.Reach

/-!
# Stack discipline of verified code

A run of code with a consistent depth assignment follows it: wherever control comes to, the stack has
the height that is assigned there. An instruction then finds all the values that it takes, and control
stays inside the code. Since verification succeeds only when there is such an assignment, code that
passes it keeps stack discipline on every run (`run_of_verify`).
-/

namespace Stacklet

/-- Whether an error says that code broke stack discipline: an instruction lacked values, or control
left the code. -/
def RunError.isIndiscipline : RunError → Bool
  | .outside .. | .negativeTarget .. => true
  | .fault cause => cause.isShortage
  | .outOfBudget _ => false

/-- A frame that has the height assigned to a position, and has never exceeded a bound. -/
structure Frame.Follows (depth : Nat → Option Nat) (bound pc : Nat) (f : Frame) : Prop where
  height : depth pc = some f.stack.height
  peak : f.stack.height ≤ f.maxDepth
  bounded : f.maxDepth ≤ bound

namespace Code

variable {code : Code} {bound : Nat} {depth : Nat → Option Nat}

/-- What an instruction can do to a frame that follows a consistent assignment: it fails for a reason
other than a shortage, goes on to a frame that follows it, or finishes within the bound. -/
theorem advance_of_follows (consistent : Verify.Consistent code.instrs bound depth) {pc : Nat}
    {f : Frame} (h : f.Follows depth bound pc) :
    (∃ e, code.advance pc f = .error (.fault e) ∧ e.isShortage = false) ∨
    (∃ pc' f', code.advance pc f = .ok (.running pc' f') ∧ f'.Follows depth bound pc') ∨
    (∃ value f', code.advance pc f = .ok (.finished value f') ∧ f'.maxDepth ≤ bound) := by
  obtain ⟨i, hi⟩ := consistent.inside h.height
  have takes := consistent.pops h.height hi
  have leaves := consistent.after h.height hi
  cases hs : f.step i with
  | error e =>
    refine .inl ⟨e, ?_, i.exec_effect.enough hs takes⟩
    rw [advance, hi]
    simp only [hs]
  | ok result =>
    obtain ⟨flow, f'⟩ := result
    have flows := i.exec_flow _ _ _ hs
    obtain ⟨-, height⟩ := i.exec_effect.height hs
    have peak := i.exec_effect.depth hs h.peak
    have bounded := h.bounded
    have follows {next : Nat} (hd : depth next = some (f.stack.height - i.pops + i.pushes)) :
        f'.Follows depth bound next :=
      ⟨height ▸ hd, by omega, by omega⟩
    cases flow with
    | next =>
      refine .inr (.inl ⟨pc + 1, f', ?_, follows (consistent.next h.height hi flows)⟩)
      rw [advance, hi]
      simp only [hs]
    | jump offset =>
      obtain ⟨next, target, hd⟩ := consistent.jump h.height hi flows
      refine .inr (.inl ⟨next, f', ?_, follows hd⟩)
      rw [advance, hi]
      simp only [hs]
      rw [if_neg (by omega), ← target, Int.toNat_natCast]
    | finish value =>
      refine .inr (.inr ⟨value, f', ?_, by omega⟩)
      rw [advance, hi]
      simp only [hs]

/-- A run of code with a consistent assignment follows it. -/
theorem Reaches.follows (consistent : Verify.Consistent code.instrs bound depth) {pc : Nat} {f : Frame}
    (h : code.Reaches pc f) : f.Follows depth bound pc := by
  apply h.invariant (P := fun pc f => f.Follows depth bound pc)
  · exact ⟨consistent.entry, Nat.le_refl 0, Nat.zero_le bound⟩
  · intro pc f pc' f' hf hs
    rcases advance_of_follows consistent hf with ⟨e, he, -⟩ | ⟨pc₁, f₁, hr, follows⟩ | ⟨v, f₁, hv, -⟩
    · rw [he] at hs
      cases hs
    · rw [hr] at hs
      cases hs
      exact follows
    · rw [hv] at hs
      cases hs

/-- A run of code with a consistent assignment does not fail for lack of discipline. -/
theorem run_disciplined (consistent : Verify.Consistent code.instrs bound depth) {budget : Nat}
    {e : RunError} (h : code.run budget = .error e) : e.isIndiscipline = false := by
  rcases run_eq_error h with rfl | ⟨pc, f, reached, he⟩
  · rfl
  · rcases advance_of_follows consistent (reached.follows consistent) with
      ⟨cause, hc, short⟩ | ⟨pc₁, f₁, hr, -⟩ | ⟨v, f₁, hv, -⟩
    · rw [hc] at he
      cases he
      exact short
    · rw [hr] at he
      cases he
    · rw [hv] at he
      cases he

/-- The stack of a run of code with a consistent assignment stays within its bound. -/
theorem maxDepth_le (consistent : Verify.Consistent code.instrs bound depth) {budget : Nat}
    {o : Outcome} (h : code.run budget = .ok o) : o.maxDepth ≤ bound := by
  obtain ⟨pc, f, value, f', reached, hf, steps, rfl⟩ := run_eq_ok h
  rcases advance_of_follows consistent (reached.follows consistent) with
    ⟨cause, hc, -⟩ | ⟨pc₁, f₁, hr, -⟩ | ⟨v, f₁, hv, le⟩
  · rw [hc] at hf
    cases hf
  · rw [hr] at hf
    cases hf
  · rw [hv] at hf
    cases hf
    exact le

end Code

/-- Verification succeeds when the greatest depth fits into 16 bits. -/
theorem verify_eq_ok {instrs : Array Instr} {m : UInt16} (h : verify instrs = .ok m) :
    Verify.peak instrs = .ok m.toNat := by
  unfold verify at h
  cases hp : Verify.peak instrs with
  | error e => rw [hp] at h; cases h
  | ok peak =>
    rw [hp] at h
    simp only [bind, Except.bind] at h
    split at h
    · next fits =>
      cases h
      rw [UInt16.toNat_ofNat_of_lt' fits]
    · cases h

/-- Code that passes verification keeps stack discipline, with whatever budget it runs: it never lacks
values and never leaves the code, every position is reached with one height of the stack, and the stack
never exceeds the depth that verification gives. -/
theorem run_of_verify {code : Code} {m : UInt16} (nonempty : 0 < code.instrs.size)
    (h : verify code.instrs = .ok m) :
    (∀ budget e, code.run budget = .error e → e.isIndiscipline = false) ∧
    (∀ pc f f', code.Reaches pc f → code.Reaches pc f' → f.stack.height = f'.stack.height) ∧
    (∀ pc f, code.Reaches pc f → f.stack.height ≤ m.toNat) ∧
    (∀ budget o, code.run budget = .ok o → o.maxDepth ≤ m.toNat) := by
  obtain ⟨depth, consistent⟩ := Verify.exists_consistent nonempty (verify_eq_ok h)
  refine ⟨fun _ _ => Code.run_disciplined consistent, ?_, ?_, fun _ _ => Code.maxDepth_le consistent⟩
  · intro pc f f' reached reached'
    have height := (reached.follows consistent).height
    have height' := (reached'.follows consistent).height
    exact Option.some.inj (height.symm.trans height')
  · intro pc f reached
    have follows := reached.follows consistent
    exact Nat.le_trans follows.peak follows.bounded

/-- Code with a switch in a loop: it counts slot 1 down from 1 and returns at 0. -/
def countdown : Code where
  name := "Countdown"
  instrs := #[.iconst 1, .store .int 1, .load .int 1, .lookupSwitch 4 [(0, 3), (1, 1)], .inc 1 (-1),
    .goto (-3), .ret, .iconst 5, .retValue .int]
  maxStack := 0
  maxLocals := 2
  fields := []

theorem countdown_disciplined :
    0 < countdown.instrs.size ∧ verify countdown.instrs = .ok 1 ∧
    (∀ budget e, countdown.run budget = .error e → e.isIndiscipline = false) ∧
    (∀ pc f f', countdown.Reaches pc f → countdown.Reaches pc f' → f.stack.height = f'.stack.height) ∧
    (∀ pc f, countdown.Reaches pc f → f.stack.height ≤ 1) ∧
    (∀ budget o, countdown.run budget = .ok o → o.maxDepth ≤ 1) := by
  have evaluated : (verify countdown.instrs).toOption = some 1 := by decide +kernel
  have verified : verify countdown.instrs = .ok 1 := by
    cases given : verify countdown.instrs with
    | error e => rw [given] at evaluated; cases evaluated
    | ok m => rw [given] at evaluated; cases evaluated; rfl
  exact ⟨by decide, verified, run_of_verify (by decide) verified⟩

end Stacklet
