import Stacklet.Machine.Run
import Stacklet.Proofs.Machine.Bisect
import Stacklet.Proofs.Sequence

/-!
# Stack effects of actions

An action on a frame has the effect `(pops, pushes)` when it replaces that many values on top of the
stack and touches nothing below them. Effects of actions in sequence add up: first all that take,
then all that leave. `exec_effect` gives every instruction the effect that it is listed with, and
`exec_flow` says that control only goes where the instruction lists it to go. In every frame, then, an
instruction does what it is listed with (`step_listed`).
-/

namespace Stacklet

/-- Whether a fault says that the stack holds too few values. -/
def Fault.isShortage : Fault → Bool
  | .underflow | .emptyDup => true
  | _ => false

namespace Exec

/-- An action that replaces `pops` values on top of the stack by `pushes` others. It runs out of values
only when there are fewer than `pops`, and the greatest height grows to the height that it leaves. -/
structure HasEffect {α : Type} (x : Exec α) (pops pushes : Nat) : Prop where
  items : ∀ {f f' : Frame} {a : α}, x f = .ok (a, f') →
    ∃ taken left rest : List Value, taken.length = pops ∧ left.length = pushes ∧
      f.stack.items = taken ++ rest ∧ f'.stack.items = left ++ rest
  depth : ∀ {f f' : Frame} {a : α}, x f = .ok (a, f') → f.stack.height ≤ f.maxDepth →
    f'.maxDepth = max f.maxDepth f'.stack.height
  enough : ∀ {f : Frame} {e : Fault}, x f = .error e → pops ≤ f.stack.height →
    e.isShortage = false

/-- An action that leaves the stack alone. -/
theorem hasEffect_none {α : Type} {x : Exec α}
    (ok : ∀ {f f' : Frame} {a : α}, x f = .ok (a, f') → f'.stack = f.stack ∧ f'.maxDepth = f.maxDepth)
    (error : ∀ {f : Frame} {e : Fault}, x f = .error e → e.isShortage = false) :
    HasEffect x 0 0 where
  items h := ⟨[], [], _, rfl, rfl, rfl, by rw [(ok h).1]; rfl⟩
  depth h low := by
    obtain ⟨hs, hd⟩ := ok h
    rw [hd, hs]
    omega
  enough h _ := error h

theorem hasEffect_pure {α : Type} (a : α) : HasEffect (pure a : Exec α) 0 0 :=
  hasEffect_none (fun h => by cases h; exact ⟨rfl, rfl⟩) (fun h => by cases h)

/-- An action that fails has every effect, if it does not lack values. -/
theorem hasEffect_fail {α : Type} {e : Fault} (h : e.isShortage = false) (pops pushes : Nat) :
    HasEffect (fail e : Exec α) pops pushes where
  items h := by cases h
  depth h := by cases h
  enough h' _ := by cases h'; exact h

theorem hasEffect_push (v : Value) : HasEffect (push v) 0 1 where
  items h := by cases h; exact ⟨[], [v], _, rfl, rfl, rfl, rfl⟩
  depth h _ := by cases h; rfl
  enough h := by cases h

theorem hasEffect_pop : HasEffect pop 1 0 where
  items {f f' a} h := by
    unfold pop at h
    split at h
    · next hp =>
      cases h
      exact ⟨[_], [], _, rfl, rfl, by rw [Stack.eq_push_of_pop? hp]; rfl, rfl⟩
    · cases h
  depth {f f' a} h low := by
    unfold pop at h
    split at h
    · next hp =>
      cases h
      rw [Stack.eq_push_of_pop? hp, Stack.height_push] at low
      simp only
      omega
    · cases h
  enough {f e} h low := by
    unfold pop at h
    split at h
    · cases h
    · next hp =>
      rw [Stack.pop?_eq_none_iff.1 hp, Stack.height_empty] at low
      omega

/-- An action that gives a result changes the height by its effect. -/
theorem HasEffect.height {α : Type} {x : Exec α} {p q : Nat} (h : HasEffect x p q) {f f' : Frame} {a : α}
    (run : x f = .ok (a, f')) : p ≤ f.stack.height ∧ f'.stack.height = f.stack.height - p + q := by
  obtain ⟨taken, left, rest, ht, hl, hi, ho⟩ := h.items run
  have before : f.stack.height = p + rest.length := by rw [f.stack.height_eq, hi, List.length_append, ht]
  have after : f'.stack.height = q + rest.length := by rw [f'.stack.height_eq, ho, List.length_append, hl]
  omega

/-- An action that only takes, followed by another. -/
theorem HasEffect.bind_take {α β : Type} {x : Exec α} {g : α → Exec β} {p q r : Nat}
    (first : HasEffect x p 0) (second : ∀ a, HasEffect (g a) q r) : HasEffect (x >>= g) (p + q) r where
  items h := by
    obtain ⟨a, f₁, hx, hg⟩ := bind_eq_ok h
    obtain ⟨taken, left, rest, ht, hl, hi, ho⟩ := first.items hx
    obtain ⟨taken', left', rest', ht', hl', hi', ho'⟩ := (second a).items hg
    rw [List.eq_nil_of_length_eq_zero hl, List.nil_append] at ho
    refine ⟨taken ++ taken', left', rest', by simp [ht, ht'], hl', ?_, ho'⟩
    rw [hi, List.append_assoc, ← hi', ho]
  depth {f f' b} h low := by
    obtain ⟨a, f₁, hx, hg⟩ := bind_eq_ok h
    have height := first.height hx
    have depth := first.depth hx low
    rw [(second a).depth hg (by omega), depth]
    omega
  enough {f e} h low := by
    rcases bind_eq_error h with hx | ⟨a, f₁, hx, hg⟩
    · exact first.enough hx (by omega)
    · have height := first.height hx
      exact (second a).enough hg (by omega)

/-- An action followed by one that only leaves. -/
theorem HasEffect.bind_leave {α β : Type} {x : Exec α} {g : α → Exec β} {p q r : Nat}
    (first : HasEffect x p q) (second : ∀ a, HasEffect (g a) 0 r) : HasEffect (x >>= g) p (r + q) where
  items h := by
    obtain ⟨a, f₁, hx, hg⟩ := bind_eq_ok h
    obtain ⟨taken, left, rest, ht, hl, hi, ho⟩ := first.items hx
    obtain ⟨taken', left', rest', ht', hl', hi', ho'⟩ := (second a).items hg
    rw [List.eq_nil_of_length_eq_zero ht', List.nil_append] at hi'
    refine ⟨taken, left' ++ left, rest, ht, by simp [hl, hl'], hi, ?_⟩
    rw [ho', ← hi', ho, List.append_assoc]
  depth {f f' b} h low := by
    obtain ⟨a, f₁, hx, hg⟩ := bind_eq_ok h
    have height := (second a).height hg
    have depth := first.depth hx low
    rw [(second a).depth hg (by omega), depth]
    omega
  enough {f e} h low := by
    rcases bind_eq_error h with hx | ⟨a, f₁, hx, hg⟩
    · exact first.enough hx low
    · exact (second a).enough hg (Nat.zero_le _)

theorem hasEffect_popInt : HasEffect popInt 1 0 := by
  refine hasEffect_pop.bind_take (q := 0) fun v => ?_
  cases v with
  | int v => exact hasEffect_pure v
  | long | double | ref => exact hasEffect_fail (by rfl) 0 0

theorem hasEffect_popLong : HasEffect popLong 1 0 := by
  refine hasEffect_pop.bind_take (q := 0) fun v => ?_
  cases v with
  | long v => exact hasEffect_pure v
  | int | double | ref => exact hasEffect_fail (by rfl) 0 0

theorem hasEffect_popDouble : HasEffect popDouble 1 0 := by
  refine hasEffect_pop.bind_take (q := 0) fun v => ?_
  cases v with
  | double v => exact hasEffect_pure v
  | int | long | ref => exact hasEffect_fail (by rfl) 0 0

theorem hasEffect_popKind (kind : Kind) : HasEffect (popKind kind) 1 0 := by
  refine hasEffect_pop.bind_take (q := 0) fun v => ?_
  split
  · exact hasEffect_pure v
  · exact hasEffect_fail (by rfl) 0 0

theorem hasEffect_popRef : HasEffect popRef 1 0 := by
  refine hasEffect_pop.bind_take (q := 0) fun v => ?_
  cases v with
  | ref => exact hasEffect_pure ()
  | int | long | double => exact hasEffect_fail (by rfl) 0 0

theorem hasEffect_getLocal (slot : UInt16) : HasEffect (getLocal slot) 0 0 := by
  apply hasEffect_none
  · intro f f' v h
    unfold getLocal at h
    split at h <;> cases h
    exact ⟨rfl, rfl⟩
  · intro f e h
    unfold getLocal at h
    split at h <;> cases h
    rfl

theorem hasEffect_setLocal (slot : UInt16) (v : Value) : HasEffect (setLocal slot v) 0 0 := by
  apply hasEffect_none
  · intro f f' a h
    unfold setLocal at h
    split at h <;> cases h
    exact ⟨rfl, rfl⟩
  · intro f e h
    unfold setLocal at h
    split at h <;> cases h
    rfl

theorem hasEffect_getField (index : UInt16) : HasEffect (getField index) 0 0 := by
  apply hasEffect_none
  · intro f f' v h
    unfold getField at h
    split at h <;> cases h
    exact ⟨rfl, rfl⟩
  · intro f e h
    unfold getField at h
    split at h <;> cases h
    rfl

theorem hasEffect_setField (index : UInt16) (v : Value) : HasEffect (setField index v) 0 0 := by
  apply hasEffect_none
  · intro f f' a h
    cases h
    exact ⟨rfl, rfl⟩
  · intro f e h
    cases h

theorem hasEffect_bump (slot : UInt16) (delta : Int32) (v : Value) : HasEffect (bump slot delta v) 0 0 := by
  cases v with
  | int | long | double => exact hasEffect_pure _
  | ref => exact hasEffect_fail (by rfl) 0 0

/-- A computation on values that may divide by zero. -/
theorem hasEffect_lift {α : Type} {r : Except Fault α} (h : ∀ e, r = .error e → e = .divisionByZero) :
    HasEffect (StateT.lift r : Exec α) 0 0 := by
  cases r with
  | ok a => exact hasEffect_pure a
  | error e => exact hasEffect_fail (by rw [h e rfl]; rfl) 0 0

theorem hasEffect_compareTop (instr : Instr) (unordered : Int32) :
    HasEffect (compareTop instr unordered) 2 1 := by
  refine hasEffect_pop.bind_take (q := 1) fun rhs => hasEffect_pop.bind_take (q := 0) fun lhs => ?_
  split
  · exact (hasEffect_push _).bind_leave fun _ => hasEffect_pure _
  · exact hasEffect_fail (by rfl) 0 1

end Exec

/-- Arithmetic on ints fails on a division by zero alone. -/
theorem ArithOp.onInts_eq_error {op : ArithOp} {a b : Int32} {e : Fault} (h : op.onInts a b = .error e) :
    e = .divisionByZero := by
  cases op with
  | add | sub | mul => cases h
  | div | rem =>
    simp only [onInts] at h
    split at h <;> cases h
    rfl

/-- Arithmetic on longs fails on a division by zero alone. -/
theorem ArithOp.onLongs_eq_error {op : ArithOp} {a b : Int64} {e : Fault} (h : op.onLongs a b = .error e) :
    e = .divisionByZero := by
  cases op with
  | add | sub | mul => cases h
  | div | rem =>
    simp only [onLongs] at h
    split at h <;> cases h
    rfl

namespace Instr

open Exec

theorem hasEffect_dup : HasEffect Instr.dup.exec 1 2 where
  items {f f' a} h := by
    simp only [exec] at h
    split at h
    · next v hv =>
      cases h
      obtain ⟨rest, hr⟩ := List.head?_eq_some_iff.1 hv
      exact ⟨[v], [v, v], rest, rfl, rfl, hr, by simp [hr]⟩
    · cases h
  depth {f f' a} h _ := by
    simp only [exec] at h
    split at h
    · cases h; rfl
    · cases h
  enough {f e} h low := by
    simp only [exec] at h
    split at h
    · cases h
    · next hv =>
      rw [f.stack.height_eq, List.head?_eq_none_iff.1 hv] at low
      simp at low

/-- Every instruction has the effect that it is listed with. -/
theorem exec_effect (i : Instr) : HasEffect i.exec i.pops i.pushes := by
  cases i with
  | iconst v | lconst v | dconst v => exact (hasEffect_push _).bind_leave fun _ => hasEffect_pure _
  | load kind slot =>
    refine (hasEffect_getLocal slot).bind_take (q := 0) fun v => ?_
    split
    · exact (hasEffect_push v).bind_leave fun _ => hasEffect_pure _
    · exact hasEffect_fail (by rfl) 0 1
  | store kind slot =>
    exact (hasEffect_popKind kind).bind_take fun v =>
      (hasEffect_setLocal slot v).bind_take fun _ => hasEffect_pure _
  | inc slot delta =>
    exact (hasEffect_getLocal slot).bind_take fun v =>
      (hasEffect_bump slot delta v).bind_take fun w =>
        (hasEffect_setLocal slot w).bind_take fun _ => hasEffect_pure _
  | loadThis => exact (hasEffect_push _).bind_leave fun _ => hasEffect_pure _
  | getField index =>
    exact (hasEffect_getField index).bind_take fun v =>
      hasEffect_popRef.bind_take fun _ => (hasEffect_push v).bind_leave fun _ => hasEffect_pure _
  | putField index =>
    exact (hasEffect_getField index).bind_take fun _ =>
      hasEffect_pop.bind_take fun v => hasEffect_popRef.bind_take fun _ =>
        (hasEffect_setField index v).bind_take fun _ => hasEffect_pure _
  | dup => exact hasEffect_dup
  | dupX1 =>
    exact hasEffect_pop.bind_take fun top => hasEffect_pop.bind_take fun below =>
      (hasEffect_push top).bind_leave fun _ => (hasEffect_push below).bind_leave fun _ =>
        (hasEffect_push top).bind_leave fun _ => hasEffect_pure _
  | pop => exact hasEffect_pop.bind_take fun _ => hasEffect_pure _
  | arith op kind =>
    cases kind with
    | int =>
      exact hasEffect_popInt.bind_take fun rhs => hasEffect_popInt.bind_take fun lhs =>
        (hasEffect_lift fun _ => ArithOp.onInts_eq_error).bind_take fun _ =>
          (hasEffect_push _).bind_leave fun _ => hasEffect_pure _
    | long =>
      exact hasEffect_popLong.bind_take fun rhs => hasEffect_popLong.bind_take fun lhs =>
        (hasEffect_lift fun _ => ArithOp.onLongs_eq_error).bind_take fun _ =>
          (hasEffect_push _).bind_leave fun _ => hasEffect_pure _
    | double =>
      exact hasEffect_popDouble.bind_take fun rhs => hasEffect_popDouble.bind_take fun lhs =>
        (hasEffect_push _).bind_leave fun _ => hasEffect_pure _
  | neg kind =>
    cases kind with
    | int => exact hasEffect_popInt.bind_take fun _ => (hasEffect_push _).bind_leave fun _ => hasEffect_pure _
    | long => exact hasEffect_popLong.bind_take fun _ => (hasEffect_push _).bind_leave fun _ => hasEffect_pure _
    | double =>
      exact hasEffect_popDouble.bind_take fun _ => (hasEffect_push _).bind_leave fun _ => hasEffect_pure _
  | lcmp =>
    refine hasEffect_pop.bind_take (q := 1) fun rhs => hasEffect_pop.bind_take (q := 0) fun lhs => ?_
    split
    · exact (hasEffect_push _).bind_leave fun _ => hasEffect_pure _
    · exact hasEffect_fail (by rfl) 0 1
  | dcmpl => exact hasEffect_compareTop _ _
  | dcmpg => exact hasEffect_compareTop _ _
  | goto offset => exact hasEffect_pure _
  | ifZero cond offset => exact hasEffect_popInt.bind_take fun _ => hasEffect_pure _
  | ifCompare cond offset =>
    exact hasEffect_popInt.bind_take fun _ => hasEffect_popInt.bind_take fun _ => hasEffect_pure _
  | tableSwitch low other offsets => exact hasEffect_popInt.bind_take fun _ => hasEffect_pure _
  | lookupSwitch other pairs => exact hasEffect_popInt.bind_take fun _ => hasEffect_pure _
  | ret => exact hasEffect_pure _
  | retValue kind => exact (hasEffect_popKind kind).bind_take fun _ => hasEffect_pure _

/-- Where an instruction lets control go. -/
def Permits (i : Instr) : Flow → Prop
  | .next => i.fallsThrough = true
  | .jump offset => offset ∈ i.offsets
  | .finish _ => i.fallsThrough = false ∧ i.offsets = []

theorem tableOffset_mem (low other key : Int32) (offsets : Array Int32) :
    (tableOffset? low offsets key).getD other ∈ other :: offsets.toList := by
  unfold tableOffset?
  simp only
  split
  · cases h : offsets[(key.toInt - low.toInt).toNat]? with
    | none => exact List.mem_cons_self
    | some offset => exact List.mem_cons_of_mem _ (Array.mem_toList_iff.2 (Array.mem_of_getElem? h))
  · exact List.mem_cons_self

theorem bisect_mem (other key : Int32) (pairs : List (Int32 × Int32)) :
    (bisect key pairs).getD other ∈ other :: pairs.map (·.2) := by
  cases h : bisect key pairs with
  | none => exact List.mem_cons_self
  | some offset => exact List.mem_cons_of_mem _ (List.mem_map.2 ⟨_, mem_of_bisect h, rfl⟩)

end Instr

/-- An action whose results have a property. -/
def Exec.Gives {α : Type} (x : Exec α) (P : α → Prop) : Prop :=
  ∀ (f f' : Frame) (a : α), x f = .ok (a, f') → P a

namespace Exec

theorem gives_pure {α : Type} {P : α → Prop} {a : α} (h : P a) : Gives (pure a) P :=
  fun _ _ _ run => by cases run; exact h

theorem gives_fail {α : Type} {P : α → Prop} (e : Fault) : Gives (fail e) P := fun _ _ _ run => by cases run

theorem gives_bind {α β : Type} {P : β → Prop} {x : Exec α} {g : α → Exec β} (h : ∀ a, Gives (g a) P) :
    Gives (x >>= g) P := by
  intro f f' b run
  obtain ⟨a, f₁, -, hg⟩ := bind_eq_ok run
  exact h a _ _ _ hg

theorem gives_compareTop (instr : Instr) (unordered : Int32) :
    Gives (compareTop instr unordered) fun flow => flow = .next := by
  refine gives_bind fun rhs => gives_bind fun lhs => ?_
  split
  · exact gives_bind fun _ => gives_pure rfl
  · exact gives_fail _

end Exec

namespace Instr

open Exec

/-- Control only goes where the instruction lets it go. -/
theorem exec_flow (i : Instr) : Gives i.exec i.Permits := by
  cases i with
  | iconst | lconst | dconst | loadThis | pop => exact gives_bind fun _ => gives_pure rfl
  | load kind slot =>
    refine gives_bind fun v => ?_
    split
    · exact gives_bind fun _ => gives_pure rfl
    · exact gives_fail _
  | store => exact gives_bind fun _ => gives_bind fun _ => gives_pure rfl
  | inc | getField => exact gives_bind fun _ => gives_bind fun _ => gives_bind fun _ => gives_pure rfl
  | putField =>
    exact gives_bind fun _ => gives_bind fun _ => gives_bind fun _ => gives_bind fun _ => gives_pure rfl
  | dup =>
    intro f f' flow run
    simp only [exec] at run
    split at run
    · cases run; rfl
    · cases run
  | dupX1 =>
    exact gives_bind fun _ => gives_bind fun _ => gives_bind fun _ => gives_bind fun _ =>
      gives_bind fun _ => gives_pure rfl
  | arith op kind =>
    cases kind with
    | int | long =>
      exact gives_bind fun _ => gives_bind fun _ => gives_bind fun _ => gives_bind fun _ => gives_pure rfl
    | double => exact gives_bind fun _ => gives_bind fun _ => gives_bind fun _ => gives_pure rfl
  | neg kind => cases kind <;> exact gives_bind fun _ => gives_bind fun _ => gives_pure rfl
  | lcmp =>
    refine gives_bind fun rhs => gives_bind fun lhs => ?_
    split
    · exact gives_bind fun _ => gives_pure rfl
    · exact gives_fail _
  | dcmpl | dcmpg =>
    intro f f' flow run
    rw [gives_compareTop _ _ _ _ _ run]
    rfl
  | goto offset => exact gives_pure List.mem_cons_self
  | ifZero cond offset =>
    refine gives_bind fun v => gives_pure ?_
    split
    · exact List.mem_cons_self
    · rfl
  | ifCompare cond offset =>
    refine gives_bind fun rhs => gives_bind fun lhs => gives_pure ?_
    split
    · exact List.mem_cons_self
    · rfl
  | tableSwitch low other offsets =>
    exact gives_bind fun key => gives_pure (tableOffset_mem low other key offsets)
  | lookupSwitch other pairs => exact gives_bind fun key => gives_pure (bisect_mem other key pairs)
  | ret => exact gives_pure ⟨rfl, rfl⟩
  | retValue => exact gives_bind fun _ => gives_pure ⟨rfl, rfl⟩

end Instr

/-- Instructions do what they are listed with. Whatever the frame, an instruction that is executed found the values
that it takes, leaves what lies below them as it was, puts its own on top, goes on only if it falls through and
jumps only by one of its offsets; and a record of heights that covered the stack becomes the greater of itself and
the new height. One that finds the values that it takes does not fail for a lack of values. -/
theorem Frame.step_listed (f : Frame) (i : Instr) :
    (∀ flow f', f.step i = .ok (flow, f') →
      i.pops ≤ f.stack.height ∧
      f'.stack.height + i.pops = f.stack.height + i.pushes ∧
      (∃ left, left.length = i.pushes ∧ f'.stack.items = left ++ f.stack.items.drop i.pops) ∧
      (flow = .next → i.fallsThrough = true) ∧
      (∀ offset, flow = .jump offset → offset ∈ i.offsets) ∧
      (f.stack.height ≤ f.maxDepth → f'.maxDepth = max f.maxDepth f'.stack.height)) ∧
    ∀ fault, f.step i = .error fault → i.pops ≤ f.stack.height → fault ≠ .underflow ∧ fault ≠ .emptyDup := by
  have effect := i.exec_effect
  constructor
  · intro flow f' stepped
    obtain ⟨enough, height⟩ := effect.height stepped
    obtain ⟨taken, left, rest, takes, leaves, before, after⟩ := effect.items stepped
    have permitted : i.Permits flow := i.exec_flow f f' flow stepped
    refine ⟨enough, by omega, ⟨left, leaves, ?_⟩, ?_, ?_, effect.depth stepped⟩
    · rw [before, after, List.drop_left' takes]
    · rintro rfl
      exact permitted
    · rintro offset rfl
      exact permitted
  · intro fault failed enough
    have other : fault.isShortage = false := effect.enough failed enough
    constructor
    · rintro rfl
      cases other
    · rintro rfl
      cases other

end Stacklet
