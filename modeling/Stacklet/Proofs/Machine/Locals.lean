import Stacklet.Proofs.Machine.Reach
import Stacklet.Proofs.Sequence

/-!
# Where locals get their values

Nothing but a `store` gives a value to a local that has none (`exec_fills`). So between the start and a point
where a local has a value, other than the receiver in slot 0, control passed a `store` to it
(`Steps.stored`).
-/

namespace Stacklet

/-- Whether the local at a slot has a value. -/
def Frame.Written (f : Frame) (k : Nat) : Prop := ∃ v, f.locals[k]? = some (some v)

namespace Exec

/-- An action that gives values to no locals but some that had none. -/
def Fills {α : Type} (x : Exec α) (slots : Nat → Prop) : Prop :=
  ∀ (f f' : Frame) (a : α), x f = .ok (a, f') → ∀ k, f'.Written k → f.Written k ∨ slots k

variable {α β : Type} {slots : Nat → Prop}

/-- An action that does not touch the locals. -/
theorem fills_of_locals_eq {x : Exec α} (h : ∀ f f' a, x f = .ok (a, f') → f'.locals = f.locals) :
    Fills x slots := by
  intro f f' a run k written
  rw [Frame.Written, h f f' a run] at written
  exact .inl written

theorem fills_pure (a : α) : Fills (pure a) slots :=
  fills_of_locals_eq fun _ _ _ run => by cases run; rfl

theorem fills_fail (e : Fault) : Fills (fail e : Exec α) slots :=
  fills_of_locals_eq fun _ _ _ run => by cases run

theorem Fills.bind {x : Exec α} {g : α → Exec β} (hx : Fills x slots) (hg : ∀ a, Fills (g a) slots) :
    Fills (x >>= g) slots := by
  intro f f' b run k written
  obtain ⟨a, f₁, first, second⟩ := bind_eq_ok run
  rcases hg a f₁ f' b second k written with written | listed
  · exact hx f f₁ a first k written
  · exact .inr listed

theorem fills_push (v : Value) : Fills (push v) slots :=
  fills_of_locals_eq fun _ _ _ run => by cases run; rfl

theorem fills_pop : Fills pop slots := by
  refine fills_of_locals_eq fun f f' v run => ?_
  unfold pop at run
  split at run <;> cases run
  rfl

theorem fills_popInt : Fills popInt slots := by
  refine fills_pop.bind fun v => ?_
  cases v with
  | int v => exact fills_pure v
  | _ => exact fills_fail _

theorem fills_popLong : Fills popLong slots := by
  refine fills_pop.bind fun v => ?_
  cases v with
  | long v => exact fills_pure v
  | _ => exact fills_fail _

theorem fills_popDouble : Fills popDouble slots := by
  refine fills_pop.bind fun v => ?_
  cases v with
  | double v => exact fills_pure v
  | _ => exact fills_fail _

theorem fills_popKind (kind : Kind) : Fills (popKind kind) slots := by
  refine fills_pop.bind fun v => ?_
  split
  · exact fills_pure v
  · exact fills_fail _

theorem fills_popRef : Fills popRef slots := by
  refine fills_pop.bind fun v => ?_
  cases v with
  | ref => exact fills_pure ()
  | _ => exact fills_fail _

theorem getLocal_of_held {slot : UInt16} {f : Frame} {v : Value}
    (held : f.locals[slot.toNat]? = some (some v)) : getLocal slot f = .ok (v, f) := by
  unfold getLocal
  rw [held]

theorem getLocal_of_absent {slot : UInt16} {f : Frame} (absent : ¬ f.Written slot.toNat) :
    getLocal slot f = .error (.uninitialized slot) := by
  unfold getLocal
  split
  · next v held => exact absurd ⟨v, held⟩ absent
  · rfl

theorem getLocal_eq_ok {slot : UInt16} {f f' : Frame} {v : Value} (run : getLocal slot f = .ok (v, f')) :
    f' = f ∧ f.locals[slot.toNat]? = some (some v) := by
  unfold getLocal at run
  split at run
  · next w held => cases run; exact ⟨rfl, held⟩
  · cases run

theorem fills_getLocal (slot : UInt16) : Fills (getLocal slot) slots :=
  fills_of_locals_eq fun _ _ _ run => by rw [(getLocal_eq_ok run).1]

theorem fills_getField (index : UInt16) : Fills (getField index) slots := by
  refine fills_of_locals_eq fun f f' v run => ?_
  unfold getField at run
  split at run <;> cases run
  rfl

theorem fills_setField (index : UInt16) (v : Value) : Fills (setField index v) slots :=
  fills_of_locals_eq fun _ _ _ run => by cases run; rfl

theorem fills_bump (slot : UInt16) (delta : Int32) (v : Value) : Fills (bump slot delta v) slots := by
  cases v with
  | ref => exact fills_fail _
  | _ => exact fills_pure _

/-- A computation on values has nothing to do with locals. -/
theorem fills_lift (r : Except Fault α) : Fills (liftM r) slots := by
  refine fills_of_locals_eq fun f f' a run => ?_
  change (r >>= fun a => .ok (a, f)) = .ok (a, f') at run
  cases r <;> cases run
  rfl

theorem fills_compareTop (instr : Instr) (unordered : Int32) : Fills (compareTop instr unordered) slots := by
  refine fills_pop.bind fun rhs => fills_pop.bind fun lhs => ?_
  split
  · exact (fills_push _).bind fun _ => fills_pure _
  · exact fills_fail _

/-- Writing a local gives a value to that one. -/
theorem fills_setLocal (slot : UInt16) (v : Value) : Fills (setLocal slot v) (· = slot.toNat) := by
  intro f f' u run k written
  unfold setLocal at run
  split at run
  · cases run
    by_cases same : slot.toNat = k
    · exact .inr same.symm
    · obtain ⟨w, held⟩ := written
      rw [Array.getElem?_setIfInBounds_ne same] at held
      exact .inl ⟨w, held⟩
  · cases run

end Exec

namespace Instr

open Exec

/-- The slot that an instruction stores to. -/
def stores : Instr → Option UInt16
  | .store _ slot => some slot
  | _ => none

/-- The slot that an instruction reads. -/
def reads : Instr → Option UInt16
  | .load _ slot | .inc slot _ => some slot
  | _ => none

/-- An instruction gives a value to no local that has none but the one that it stores to. -/
theorem exec_fills (i : Instr) : Fills i.exec fun k => ∃ slot, i.stores = some slot ∧ slot.toNat = k := by
  cases i with
  | iconst | lconst | dconst | loadThis => exact (fills_push _).bind fun _ => fills_pure _
  | load kind slot =>
    refine (fills_getLocal slot).bind fun v => ?_
    split
    · exact (fills_push v).bind fun _ => fills_pure _
    · exact fills_fail _
  | store kind slot =>
    refine (fills_popKind kind).bind fun v => Fills.bind ?_ fun _ => fills_pure _
    intro f f' u run k written
    rcases fills_setLocal slot v f f' u run k written with written | rfl
    · exact .inl written
    · exact .inr ⟨slot, rfl, rfl⟩
  | inc slot delta =>
    -- The local that is written has just been read, so that it had a value.
    intro f f' flow run k written
    obtain ⟨v, f₁, got, rest⟩ := bind_eq_ok run
    obtain ⟨rfl, held⟩ := getLocal_eq_ok got
    have filled : Fills (do setLocal slot (← bump slot delta v); return Flow.next) (· = slot.toNat) :=
      (fills_bump slot delta v).bind fun w => (fills_setLocal slot w).bind fun _ => fills_pure _
    rcases filled _ f' flow rest k written with written | rfl
    · exact .inl written
    · exact .inl ⟨v, held⟩
  | getField index =>
    exact (fills_getField index).bind fun _ => fills_popRef.bind fun _ => (fills_push _).bind fun _ => fills_pure _
  | putField index =>
    exact (fills_getField index).bind fun _ => fills_pop.bind fun v => fills_popRef.bind fun _ =>
      (fills_setField index v).bind fun _ => fills_pure _
  | dup =>
    refine fills_of_locals_eq fun f f' flow run => ?_
    simp only [exec] at run
    split at run
    · cases run; rfl
    · cases run
  | dupX1 =>
    exact fills_pop.bind fun top => fills_pop.bind fun below => (fills_push top).bind fun _ =>
      (fills_push below).bind fun _ => (fills_push top).bind fun _ => fills_pure _
  | pop => exact fills_pop.bind fun _ => fills_pure _
  | arith op kind =>
    cases kind with
    | int =>
      exact fills_popInt.bind fun _ => fills_popInt.bind fun _ => (fills_lift _).bind fun _ =>
        (fills_push _).bind fun _ => fills_pure _
    | long =>
      exact fills_popLong.bind fun _ => fills_popLong.bind fun _ => (fills_lift _).bind fun _ =>
        (fills_push _).bind fun _ => fills_pure _
    | double =>
      exact fills_popDouble.bind fun _ => fills_popDouble.bind fun _ => (fills_push _).bind fun _ =>
        fills_pure _
  | neg kind =>
    cases kind with
    | int => exact fills_popInt.bind fun _ => (fills_push _).bind fun _ => fills_pure _
    | long => exact fills_popLong.bind fun _ => (fills_push _).bind fun _ => fills_pure _
    | double => exact fills_popDouble.bind fun _ => (fills_push _).bind fun _ => fills_pure _
  | lcmp =>
    refine fills_pop.bind fun rhs => fills_pop.bind fun lhs => ?_
    split
    · exact (fills_push _).bind fun _ => fills_pure _
    · exact fills_fail _
  | dcmpl | dcmpg => exact fills_compareTop _ _
  | goto | ret => exact fills_pure _
  | ifZero | tableSwitch | lookupSwitch => exact fills_popInt.bind fun _ => fills_pure _
  | ifCompare => exact fills_popInt.bind fun _ => fills_popInt.bind fun _ => fills_pure _
  | retValue kind => exact (fills_popKind kind).bind fun _ => fills_pure _

/-- An instruction that reads a local fails, unless the local has a value and is not the receiver. -/
theorem exec_reads {i : Instr} {slot : UInt16} (reads : i.reads = some slot) (f : Frame) :
    (∃ v, f.locals[slot.toNat]? = some (some v) ∧ v ≠ .ref) ∨
      ∃ fault, i.exec f = .error fault ∧ fault ≠ .divisionByZero := by
  by_cases written : f.Written slot.toNat
  · obtain ⟨v, held⟩ := written
    by_cases receiver : v = .ref
    · subst receiver
      have got := getLocal_of_held held
      right
      cases i with
      | load kind slot' =>
        cases reads
        refine ⟨.wrongLocal slot .ref kind, ?_, nofun⟩
        rw [exec, bind_of_ok got, if_neg nofun]
        rfl
      | inc slot' delta =>
        cases reads
        refine ⟨.incReceiver slot, ?_, nofun⟩
        rw [exec, bind_of_ok got]
        rfl
      | _ => cases reads
    · exact .inl ⟨v, held, receiver⟩
  · have fails := getLocal_of_absent written
    refine .inr ⟨.uninitialized slot, ?_, nofun⟩
    cases i with
    | load kind slot' => cases reads; rw [exec, bind_of_error fails]
    | inc slot' delta => cases reads; rw [exec, bind_of_error fails]
    | _ => cases reads

end Instr

namespace Code

variable {code : Code}

theorem advance_of_fault {pc : Nat} {f : Frame} {instr : Instr} {fault : Fault}
    (found : code.instrs[pc]? = some instr) (fails : instr.exec f = .error fault) :
    code.advance pc f = .error (.fault fault) := by
  unfold advance
  simp only [found, Frame.step]
  rw [fails]

/-- An instruction that leads on keeps locals without a value as they are, apart from one that it stores
to. -/
theorem advance_fills {pc pc' k : Nat} {f f' : Frame} (goes : code.advance pc f = .ok (.running pc' f'))
    (written : f'.Written k) :
    f.Written k ∨ ∃ instr slot, code.instrs[pc]? = some instr ∧ instr.stores = some slot ∧ slot.toNat = k := by
  unfold advance at goes
  cases found : code.instrs[pc]? with
  | none => rw [found] at goes; cases goes
  | some instr =>
    simp only [found] at goes
    cases done : f.step instr with
    | error fault => rw [done] at goes; cases goes
    | ok result =>
      obtain ⟨flow, f₁⟩ := result
      have same : f₁ = f' := by
        rw [done] at goes
        cases flow with
        | next => cases goes; rfl
        | finish value => cases goes
        | jump offset =>
          simp only at goes
          split at goes <;> cases goes
          rfl
      subst same
      rcases instr.exec_fills f f₁ flow done k written with written | ⟨slot, stores, rfl⟩
      · exact .inl written
      · exact .inr ⟨instr, slot, rfl, stores, rfl⟩

/-- On the way to where a local has a value that had none, control passed a `store` to it. -/
theorem Steps.stored {n pc pc' k : Nat} {f f' : Frame} (steps : code.Steps n pc f pc' f')
    (written : f'.Written k) :
    f.Written k ∨ ∃ m < n, ∃ pc₁ f₁ instr slot, code.Steps m pc f pc₁ f₁ ∧
      code.instrs[pc₁]? = some instr ∧ instr.stores = some slot ∧ slot.toNat = k := by
  induction steps with
  | refl => exact .inl written
  | @step n pc pc₁ pc' f f₁ f' goes rest ih =>
    rcases ih written with before | ⟨m, less, pc₂, f₂, instr, slot, steps, found, stores, same⟩
    · rcases advance_fills goes before with before | ⟨instr, slot, found, stores, same⟩
      · exact .inl before
      · exact .inr ⟨0, Nat.succ_pos n, pc, f, instr, slot, .refl pc f, found, stores, same⟩
    · exact .inr ⟨m + 1, Nat.succ_lt_succ less, pc₂, f₂, instr, slot, .step goes steps, found, stores, same⟩

/-- At the start only the receiver is there. -/
theorem not_written_start {k : Nat} (other : k ≠ 0) : ¬ code.start.Written k := by
  rintro ⟨v, held⟩
  rw [start, Array.getElem?_setIfInBounds_ne other.symm, Array.getElem?_replicate] at held
  split at held <;> cases held

end Code

end Stacklet
