import Stacklet.Lowering.Expr
import Stacklet.Proofs.Assembly.Dispatch
import Stacklet.Proofs.Machine.Locals
import Stacklet.Proofs.Sequence
import Stacklet.Proofs.Simulation.Meets

/-!
# What instructions compute

Instructions compute with values of their kind what evaluation computes: arithmetic and its only error,
comparisons, also of doubles that are no numbers, and steps of a local by one.
-/

namespace Stacklet

/-! ## Comparisons -/

/-- The order of two longs, compared with zero, decides every condition. -/
theorem Cond.test_compareLongs (c : Cond) (a b : Int64) : c.test (compareLongs a b) 0 = c.holds a b := by
  have trichotomy : a < b ∨ a = b ∨ b < a := by
    rw [Int64.lt_iff_toInt_lt, Int64.lt_iff_toInt_lt, ← Int64.toInt_inj]
    omega
  unfold compareLongs
  rcases trichotomy with lt | rfl | gt
  · have ne : a ≠ b := Int64.ne_of_lt lt
    have le : a ≤ b := Int64.le_of_lt lt
    have ge : ¬ b ≤ a := Int64.not_le.2 lt
    have gt : ¬ b < a := Int64.lt_asymm lt
    cases c <;> simp [test, holds, lt, ne, le, ge, gt]
  · cases c <;> simp [test, holds]
  · have ne : a ≠ b := (Int64.ne_of_lt gt).symm
    have ge : b ≤ a := Int64.le_of_lt gt
    have le : ¬ a ≤ b := Int64.not_le.2 gt
    have lt : ¬ a < b := Int64.lt_asymm gt
    cases c <;> simp [test, holds, lt, ne, le, ge, gt]

/-- The order of two doubles, if they have one. -/
def orderOf (a b : Float) : Option Ordering := a.toModel.unpack.compare b.toModel.unpack

section Doubles

open Float.Model

/-- Doubles have the same order from either side, or none. -/
theorem compare_swap (a b : UnpackedFloat) : b.compare a = (a.compare b).map Ordering.swap := by
  cases a with
  | notANumber => cases b <;> rfl
  | infinity s =>
    cases s <;> cases b with
    | infinity s' => cases s' <;> rfl
    | _ => rfl
  | zero s =>
    cases b with
    | infinity s' | finite s' => cases s' <;> rfl
    | _ => rfl
  | finite s m e h =>
    cases b with
    | infinity s' => cases s <;> cases s' <;> rfl
    | zero | notANumber => cases s <;> rfl
    | finite s' m' e' h' =>
      unfold UnpackedFloat.compare
      cases s <;> cases s' <;> simp [Ordering.swap_then, Int.compare_swap, Nat.compare_swap]

end Doubles

variable (a b : Float)

theorem lt_iff_orderOf : a < b ↔ orderOf a b = some .lt := by
  change decide (Float.Model.lt a.toModel b.toModel = true) = true ↔ _
  rw [decide_eq_true_eq]
  exact beq_iff_eq

theorem gt_iff_orderOf : b < a ↔ orderOf a b = some .gt := by
  rw [lt_iff_orderOf, orderOf, compare_swap]
  change (orderOf a b).map _ = _ ↔ _
  cases orderOf a b with
  | none => exact ⟨nofun, nofun⟩
  | some o => cases o <;> decide

theorem le_iff_orderOf : a ≤ b ↔ orderOf a b = some .lt ∨ orderOf a b = some .eq := by
  change decide (Float.Model.le a.toModel b.toModel = true) = true ↔ _
  rw [decide_eq_true_eq]
  change (orderOf a b).any _ = true ↔ _
  cases orderOf a b with
  | none => exact ⟨nofun, nofun⟩
  | some o => cases o <;> decide

theorem ge_iff_orderOf : b ≤ a ↔ orderOf a b = some .gt ∨ orderOf a b = some .eq := by
  rw [le_iff_orderOf, orderOf, compare_swap]
  change (orderOf a b).map _ = _ ∨ (orderOf a b).map _ = _ ↔ _
  cases orderOf a b with
  | none => exact ⟨nofun, nofun⟩
  | some o => cases o <;> decide

theorem beq_eq_orderOf : (a == b) = (orderOf a b == some .eq) := rfl

/-- The order of two doubles, compared with zero, decides every condition, if one that is not a number
comes out on the side where the condition fails. -/
theorem Cond.test_compareDoubles (c : Cond) :
    c.test (compareDoubles (if c = .lt ∨ c = .le then 1 else -1) a b) 0 = c.holds a b := by
  have lt := lt_iff_orderOf a b
  have gt := gt_iff_orderOf a b
  have le := le_iff_orderOf a b
  have ge := ge_iff_orderOf a b
  have eq := beq_eq_orderOf a b
  unfold compareDoubles
  cases horder : orderOf a b with
  | none =>
    rw [horder] at lt gt le ge eq
    cases c <;> simp [test, holds, bne, lt, gt, le, ge, eq]
  | some o =>
    rw [horder] at lt gt le ge eq
    cases o <;> cases c <;> simp [test, holds, bne, lt, gt, le, ge, eq]

/-! ## Arithmetic -/

theorem ofInt_one : Float.ofInt 1 = 1.0 := by decide +kernel

open Float.Model in
/-- Adding minus one to a double is subtracting one. -/
theorem add_ofInt_neg_one (x : Float) : x + Float.ofInt (-1) = x - 1.0 := by
  have one : ∃ h, (1.0 : Float).toModel.unpack = .finite .positive (2 ^ 52) (-52) h := ⟨by decide, by rfl⟩
  have negOne : ∃ h, (Float.ofInt (-1)).toModel.unpack = .finite .negative (2 ^ 52) (-52) h :=
    ⟨by decide, by rfl⟩
  obtain ⟨h, one⟩ := one
  obtain ⟨h', negOne⟩ := negOne
  change Float.ofModel (pack (UnpackedFloat.add _ _ _)) = Float.ofModel (pack (UnpackedFloat.sub _ _ _))
  rw [one, negOne]
  cases x.toModel.unpack <;> rfl

namespace ArithOp

theorem onInts_eq (op : ArithOp) (a b : Int32) :
    op.onInts a b = if op.divides ∧ b = 0 then .error .divisionByZero else .ok (op.wrapping a b) := by
  cases op <;> simp [onInts, divides, wrapping]

theorem onLongs_eq (op : ArithOp) (a b : Int64) :
    op.onLongs a b = if op.divides ∧ b = 0 then .error .divisionByZero else .ok (op.wrapping a b) := by
  cases op <;> simp [onLongs, divides, wrapping]

theorem onDoubles_eq (op : ArithOp) (a b : Float) : op.onDoubles a b = op.rounded a b := by cases op <;> rfl

end ArithOp

/-- A number of a kind. -/
theorem Value.exists_of_kind {v : Value} {kind : Kind} (h : v.kind? = some kind) :
    match kind with
    | .int => ∃ x, v = .int x
    | .long => ∃ x, v = .long x
    | .double => ∃ x, v = .double x := by
  cases v <;> cases h <;> exact ⟨_, rfl⟩

/-- The number one of a kind. -/
def Kind.oneValue : Kind → Value
  | .int => .int 1
  | .long => .long 1
  | .double => .double 1.0

namespace Instr

variable {op : ArithOp} {kind : Kind} {lhs rhs v : Value} {s : List Value} {σ : Store}

theorem exec_arith_int (x y : Int32) (peak : Nat) :
    (arith op .int).exec (σ.frame (.int y :: .int x :: s) peak) =
      (do Exec.push (.int (← op.onInts x y)); return .next : Exec Flow) (σ.frame s peak) := rfl

theorem exec_arith_long (x y : Int64) (peak : Nat) :
    (arith op .long).exec (σ.frame (.long y :: .long x :: s) peak) =
      (do Exec.push (.long (← op.onLongs x y)); return .next : Exec Flow) (σ.frame s peak) := rfl

/-- Arithmetic gives what evaluation gives, and fails when it halts. -/
theorem arith_cases (hl : lhs.kind? = some kind) (hr : rhs.kind? = some kind) :
    (∃ v, op.apply kind lhs rhs = .ok v ∧ v.kind? = some kind ∧
      (arith op kind).Does (rhs :: lhs :: s) σ .next (v :: s) σ) ∨
    op.apply kind lhs rhs = .error .divisionByZero ∧
      (arith op kind).FailsOn (rhs :: lhs :: s) σ .divisionByZero := by
  have left := Value.exists_of_kind hl
  have right := Value.exists_of_kind hr
  cases kind with
  | int =>
    obtain ⟨x, rfl⟩ := left
    obtain ⟨y, rfl⟩ := right
    by_cases zero : op.divides ∧ y = 0
    · refine .inr ⟨if_pos zero, fun peak => ?_⟩
      rw [exec_arith_int, ArithOp.onInts_eq, if_pos zero]
      rfl
    · refine .inl ⟨.int (op.wrapping x y), if_neg zero, rfl, fun peak => ⟨max peak (s.length + 1), ?_⟩⟩
      rw [exec_arith_int, ArithOp.onInts_eq, if_neg zero]
      rfl
  | long =>
    obtain ⟨x, rfl⟩ := left
    obtain ⟨y, rfl⟩ := right
    by_cases zero : op.divides ∧ y = 0
    · refine .inr ⟨if_pos zero, fun peak => ?_⟩
      rw [exec_arith_long, ArithOp.onLongs_eq, if_pos zero]
      rfl
    · refine .inl ⟨.long (op.wrapping x y), if_neg zero, rfl, fun peak => ⟨max peak (s.length + 1), ?_⟩⟩
      rw [exec_arith_long, ArithOp.onLongs_eq, if_neg zero]
      rfl
  | double =>
    obtain ⟨x, rfl⟩ := left
    obtain ⟨y, rfl⟩ := right
    refine .inl ⟨.double (op.rounded x y), rfl, rfl, fun peak => ⟨max peak (s.length + 1), ?_⟩⟩
    rw [← ArithOp.onDoubles_eq]
    rfl

theorem does_neg (hv : v.kind? = some kind) : (neg kind).Does (v :: s) σ .next (v.negate kind :: s) σ := by
  intro peak
  have number := Value.exists_of_kind hv
  cases kind <;> obtain ⟨x, rfl⟩ := number <;> exact ⟨_, rfl⟩

theorem does_one (kind : Kind) : kind.one.Does s σ .next (kind.oneValue :: s) σ := by
  intro peak
  cases kind <;> exact ⟨_, rfl⟩

/-- Adding one, or subtracting it, makes of a number what a step makes of it. -/
theorem does_change (op : StepOp) (hv : v.kind? = some kind) :
    (arith (if op.isIncrement then .add else .sub) kind).Does (kind.oneValue :: v :: s) σ .next
      (op.changed kind v :: s) σ := by
  have one : kind.oneValue.kind? = some kind := by cases kind <;> rfl
  have computed : (if op.isIncrement then ArithOp.add else .sub).apply kind v kind.oneValue =
      .ok (op.changed kind v) := by
    cases op <;> cases kind <;> rfl
  rcases arith_cases hv one with ⟨w, applied, -, does⟩ | ⟨halts, -⟩
  · rw [computed] at applied
    cases applied
    exact does
  · rw [computed] at halts
    cases halts

/-! ## Places -/

variable {slot index : UInt16}

theorem does_load (found : σ.locals[slot.toNat]? = some (some v)) (hk : v.kind? = some kind) :
    (load kind slot).Does s σ .next (v :: s) σ := by
  intro peak
  have got : Exec.getLocal slot (σ.frame s peak) = .ok (v, σ.frame s peak) := Exec.getLocal_of_held found
  refine ⟨max peak (s.length + 1), ?_⟩
  rw [exec, bind_of_ok got, if_pos hk]
  rfl

theorem getLocal_fails (absent : ∀ v, σ.locals[slot.toNat]? ≠ some (some v)) (peak : Nat) :
    Exec.getLocal slot (σ.frame s peak) = .error (.uninitialized slot) :=
  Exec.getLocal_of_absent fun ⟨v, found⟩ => absent v found

theorem load_fails (absent : ∀ v, σ.locals[slot.toNat]? ≠ some (some v)) :
    (load kind slot).FailsOn s σ (.uninitialized slot) := by
  intro peak
  rw [exec, bind_of_error (getLocal_fails absent peak)]

theorem popKind_top (hk : v.kind? = some kind) (peak : Nat) :
    Exec.popKind kind (σ.frame (v :: s) peak) = .ok (v, σ.frame s peak) := by
  have top : Exec.pop (σ.frame (v :: s) peak) = .ok (v, σ.frame s peak) := rfl
  rw [Exec.popKind, bind_of_ok top, if_pos hk]
  rfl

theorem does_store (hk : v.kind? = some kind) (inside : slot.toNat < σ.locals.size) :
    (store kind slot).Does (v :: s) σ .next s ⟨σ.locals.setIfInBounds slot.toNat (some v), σ.fields⟩ := by
  intro peak
  have written : Exec.setLocal slot v (σ.frame s peak) =
      .ok ((), Store.frame ⟨σ.locals.setIfInBounds slot.toNat (some v), σ.fields⟩ s peak) := if_pos inside
  refine ⟨peak, ?_⟩
  rw [exec, bind_of_ok (popKind_top hk peak), bind_of_ok written]
  rfl

theorem store_fails (hk : v.kind? = some kind) (outside : ¬ slot.toNat < σ.locals.size) :
    (store kind slot).FailsOn (v :: s) σ (.noSuchLocal slot σ.locals.size) := by
  intro peak
  have refused : Exec.setLocal slot v (σ.frame s peak) = .error (.noSuchLocal slot σ.locals.size) :=
    if_neg outside
  rw [exec, bind_of_ok (popKind_top hk peak), bind_of_error refused]

/-- A local is stepped in place by one. -/
theorem bump_delta (op : StepOp) (hk : v.kind? = some kind) (f : Frame) :
    Exec.bump slot op.delta v f = .ok (op.changed kind v, f) := by
  have number := Value.exists_of_kind hk
  cases kind with
  | int =>
    obtain ⟨x, rfl⟩ := number
    cases op with
    | preInc | postInc => rfl
    | preDec | postDec =>
      change Except.ok (Value.int (x + -1), f) = .ok (Value.int (x - 1), f)
      rw [Int32.sub_eq_add_neg]
  | long =>
    obtain ⟨x, rfl⟩ := number
    cases op with
    | preInc | postInc => rfl
    | preDec | postDec =>
      change Except.ok (Value.long (x + -1), f) = .ok (Value.long (x - 1), f)
      rw [Int64.sub_eq_add_neg]
  | double =>
    obtain ⟨x, rfl⟩ := number
    cases op with
    | preInc | postInc =>
      change Except.ok (Value.double (x + Float.ofInt 1), f) = .ok (Value.double (x + 1.0), f)
      rw [ofInt_one]
    | preDec | postDec =>
      change Except.ok (Value.double (x + Float.ofInt (-1)), f) = .ok (Value.double (x - 1.0), f)
      rw [add_ofInt_neg_one]

theorem does_inc (op : StepOp) (found : σ.locals[slot.toNat]? = some (some v)) (hk : v.kind? = some kind) :
    (inc slot op.delta).Does s σ .next s
      ⟨σ.locals.setIfInBounds slot.toNat (some (op.changed kind v)), σ.fields⟩ := by
  intro peak
  obtain ⟨inside, -⟩ := Array.getElem?_eq_some_iff.1 found
  have got : Exec.getLocal slot (σ.frame s peak) = .ok (v, σ.frame s peak) := Exec.getLocal_of_held found
  have written (w : Value) : Exec.setLocal slot w (σ.frame s peak) =
      .ok ((), Store.frame ⟨σ.locals.setIfInBounds slot.toNat (some w), σ.fields⟩ s peak) := if_pos inside
  refine ⟨peak, ?_⟩
  rw [exec, bind_of_ok got, bind_of_ok (bump_delta op hk _), bind_of_ok (written _)]
  rfl

theorem inc_fails (delta : Int32) (absent : ∀ v, σ.locals[slot.toNat]? ≠ some (some v)) :
    (inc slot delta).FailsOn s σ (.uninitialized slot) := by
  intro peak
  rw [exec, bind_of_error (getLocal_fails absent peak)]

theorem does_getField (found : σ.fields[index.toNat]? = some v) :
    (getField index).Does (.ref :: s) σ .next (v :: s) σ := by
  intro peak
  have got : Exec.getField index (σ.frame (.ref :: s) peak) = .ok (v, σ.frame (.ref :: s) peak) := by
    simp only [Exec.getField, Store.frame, found]
  refine ⟨max peak (s.length + 1), ?_⟩
  rw [exec, bind_of_ok got]
  rfl

theorem does_putField {old : Value} (found : σ.fields[index.toNat]? = some old) :
    (putField index).Does (v :: .ref :: s) σ .next s
      ⟨σ.locals, σ.fields.setIfInBounds index.toNat v⟩ := by
  intro peak
  have got : Exec.getField index (σ.frame (v :: .ref :: s) peak) =
      .ok (old, σ.frame (v :: .ref :: s) peak) := by
    simp only [Exec.getField, Store.frame, found]
  refine ⟨peak, ?_⟩
  rw [exec, bind_of_ok got]
  rfl

theorem getField_refused (absent : σ.fields[index.toNat]? = none) (peak : Nat) :
    Exec.getField index (σ.frame s peak) = .error (.noSuchField index) := by
  simp only [Exec.getField, Store.frame, absent]

theorem getField_fails (absent : σ.fields[index.toNat]? = none) :
    (getField index).FailsOn s σ (.noSuchField index) := by
  intro peak
  rw [exec, bind_of_error (getField_refused absent peak)]

theorem putField_fails (absent : σ.fields[index.toNat]? = none) :
    (putField index).FailsOn s σ (.noSuchField index) := by
  intro peak
  rw [exec, bind_of_error (getField_refused absent peak)]

/-! ## The rest -/

theorem does_literal (l : Literal) : l.instr.Does s σ .next (l.value :: s) σ := by
  intro peak
  cases l <;> exact ⟨_, rfl⟩

theorem does_loadThis : loadThis.Does s σ .next (.ref :: s) σ := fun _ => ⟨_, rfl⟩

theorem does_dup : dup.Does (v :: s) σ .next (v :: v :: s) σ := fun _ => ⟨_, rfl⟩

theorem does_dupX1 {w : Value} : dupX1.Does (v :: w :: s) σ .next (v :: w :: v :: s) σ := fun _ => ⟨_, rfl⟩

theorem does_pop : pop.Does (v :: s) σ .next s σ := fun _ => ⟨_, rfl⟩

theorem does_goto {offset : Int32} : (goto offset).Does s σ (.jump offset) s σ := fun _ => ⟨_, rfl⟩

theorem does_ifZero {cond : Cond} {offset x : Int32} :
    (ifZero cond offset).Does (.int x :: s) σ (if cond.test x 0 then .jump offset else .next) s σ :=
  fun _ => ⟨_, rfl⟩

theorem does_ifCompare {cond : Cond} {offset x y : Int32} :
    (ifCompare cond offset).Does (.int y :: .int x :: s) σ (if cond.test x y then .jump offset else .next)
      s σ :=
  fun _ => ⟨_, rfl⟩

theorem does_switch {i : Instr} {key offset : Int32} (h : i.offsetFor? key = some offset) :
    i.Does (.int key :: s) σ (.jump offset) s σ := by
  intro peak
  cases i <;> cases h <;> exact ⟨_, rfl⟩

theorem does_ret : ret.Does s σ (.finish none) s σ := fun _ => ⟨_, rfl⟩

theorem does_retValue (hk : v.kind? = some kind) : (retValue kind).Does (v :: s) σ (.finish (some v)) s σ := by
  intro peak
  refine ⟨peak, ?_⟩
  rw [exec, bind_of_ok (popKind_top hk peak)]
  rfl

end Instr

end Stacklet
