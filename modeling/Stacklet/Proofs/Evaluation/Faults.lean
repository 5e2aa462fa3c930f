import Stacklet.Machine.Frame
import Stacklet.Proofs.Evaluation.Expr
import Stacklet.Proofs.Sequence

/-!
# Evaluation with faults

Evaluation as the machine carries it out: over any store, also one that lacks some of the places, and with
the fault that the machine fails with. A place that holds nothing cannot be read, and one that the store
does not have cannot be written.
-/

namespace Stacklet

/-- A computation on the store that may fail as the machine does. -/
abbrev Work := StateT Store (Except Fault)

namespace Place

/-- What a store holds in a place. -/
def held? (σ : Store) : Place → Option Value
  | .ofLocal var => (σ.locals[var.slot.toNat]?).join
  | .ofField field => σ.fields[field.index.toNat]?

/-- Whether a store has a place. -/
def isIn (σ : Store) : Place → Bool
  | .ofLocal var => decide (var.slot.toNat < σ.locals.size)
  | .ofField field => decide (field.index.toNat < σ.fields.size)

/-- The fault of reading a place that holds nothing. -/
def unread : Place → Fault
  | .ofLocal var => .uninitialized var.slot
  | .ofField field => .noSuchField field.index

/-- The fault of writing a place that the store does not have. -/
def unwritten (σ : Store) : Place → Fault
  | .ofLocal var => .noSuchLocal var.slot σ.locals.size
  | .ofField field => .noSuchField field.index

/-- Reads a place. -/
def load (p : Place) : Work Value := fun σ =>
  match p.held? σ with
  | some v => .ok (v, σ)
  | none => .error p.unread

/-- Writes a place. -/
def assign (p : Place) (v : Value) : Work Unit := fun σ =>
  if p.isIn σ then .ok ((), p.write σ v) else .error (p.unwritten σ)

variable {p : Place} {σ : Store} {v w : Value}

theorem held?_ofLocal {var : LocalVar} :
    (ofLocal var).held? σ = some v ↔ σ.locals[var.slot.toNat]? = some (some v) :=
  Option.join_eq_some_iff

theorem held?_ofLocal_eq_none {var : LocalVar} (h : (ofLocal var).held? σ = none) (v : Value) :
    σ.locals[var.slot.toNat]? ≠ some (some v) := by
  intro found
  rw [held?_ofLocal.2 found] at h
  cases h

/-- A place that holds something is there. -/
theorem isIn_of_held? (h : p.held? σ = some v) : p.isIn σ = true := by
  cases p with
  | ofLocal var => exact decide_eq_true (Array.getElem?_eq_some_iff.1 (held?_ofLocal.1 h)).1
  | ofField field => exact decide_eq_true (Array.getElem?_eq_some_iff.1 h).1

theorem load_of_held? (h : p.held? σ = some v) : p.load σ = .ok (v, σ) := by
  rw [load, h]

theorem load_of_none (h : p.held? σ = none) : p.load σ = .error p.unread := by
  rw [load, h]

theorem assign_of_isIn (h : p.isIn σ = true) : p.assign v σ = .ok ((), p.write σ v) := if_pos h

theorem assign_of_not_isIn (h : p.isIn σ = false) : p.assign v σ = .error (p.unwritten σ) :=
  if_neg (by rw [h]; exact Bool.false_ne_true)

theorem held?_write_self (h : p.isIn σ = true) : p.held? (p.write σ v) = some v := by
  cases p with
  | ofLocal var => exact held?_ofLocal.2 (Array.getElem?_setIfInBounds_self_of_lt (of_decide_eq_true h))
  | ofField field => exact Array.getElem?_setIfInBounds_self_of_lt (of_decide_eq_true h)

/-- Writing a place changes no local but the one that it is. -/
theorem locals_write {slot : Nat} (other : ∀ var, p = .ofLocal var → var.slot.toNat ≠ slot) :
    (p.write σ v).locals[slot]? = σ.locals[slot]? := by
  cases p with
  | ofLocal var => exact Array.getElem?_setIfInBounds_ne (other var rfl)
  | ofField field => rfl

/-- Writing a place changes no field but the one that it is. -/
theorem fields_write {index : Nat} (other : ∀ field, p = .ofField field → field.index.toNat ≠ index) :
    (p.write σ v).fields[index]? = σ.fields[index]? := by
  cases p with
  | ofLocal var => rfl
  | ofField field => exact Array.getElem?_setIfInBounds_ne (other field rfl)

/-- Where a place is: the slot of a local or the index of a field. -/
def spot : Place → UInt16 ⊕ UInt16
  | .ofLocal var => .inl var.slot
  | .ofField field => .inr field.index

/-- What a place holds after another one was written is the value written, if it is the same place, or what
it held before. -/
theorem held?_write {q : Place} (h : q.held? (p.write σ v) = some w) :
    q.spot = p.spot ∧ w = v ∨ q.held? σ = some w := by
  cases p with
  | ofLocal var =>
    cases q with
    | ofLocal var' =>
      rw [held?_ofLocal, write, Array.getElem?_setIfInBounds] at h
      split at h
      · next same =>
        split at h
        · cases h
          exact .inl ⟨congrArg Sum.inl (UInt16.toNat_inj.1 same).symm, rfl⟩
        · cases h
      · exact .inr (held?_ofLocal.2 h)
    | ofField field => exact .inr h
  | ofField field =>
    cases q with
    | ofLocal var => exact .inr h
    | ofField field' =>
      rw [held?, write, Array.getElem?_setIfInBounds] at h
      split at h
      · next same =>
        split at h
        · cases h
          exact .inl ⟨congrArg Sum.inr (UInt16.toNat_inj.1 same).symm, rfl⟩
        · cases h
      · exact .inr h

end Place

theorem ArithOp.apply_eq_error {op : ArithOp} {kind : Kind} {a b : Value} {halt : Halt}
    (h : op.apply kind a b = .error halt) : halt = .divisionByZero := by
  cases kind with
  | int | long =>
    simp only [apply] at h
    split at h <;> cases h
    rfl
  | double => cases h

/-- The operation on numbers of a kind; the only fault is that of a division by zero. -/
def ArithOp.work (op : ArithOp) (kind : Kind) (a b : Value) : Work Value := fun σ =>
  match op.apply kind a b with
  | .ok v => .ok (v, σ)
  | .error _ => .error .divisionByZero

theorem ArithOp.work_of_ok {op : ArithOp} {kind : Kind} {a b v : Value} {σ : Store}
    (h : op.apply kind a b = .ok v) : op.work kind a b σ = .ok (v, σ) := by
  rw [work, h]

theorem ArithOp.work_of_error {op : ArithOp} {kind : Kind} {a b : Value} {halt : Halt} {σ : Store}
    (h : op.apply kind a b = .error halt) : op.work kind a b σ = .error .divisionByZero := by
  rw [work, h]

namespace Typed.Expr

/-- The value of an expression, or the fault with which the machine fails. -/
def compute : Expr → Work Value
  | .literal _ _ v => return v.value
  | .load _ _ p => p.load
  | .negate _ ty e => do return (← e.compute).negate ty.storage
  | .not _ _ e => do return .ofBool !(← e.compute).truth
  | .step _ ty op p => do
    let old ← p.load
    p.assign (op.changed ty.storage old)
    return op.result ty.storage old
  | .binary _ ty (.arith op) l r => do
    let lhs ← l.compute
    let rhs ← r.compute
    op.work ty.storage lhs rhs
  | .binary _ _ (.compare cond) l r => do
    let lhs ← l.compute
    let rhs ← r.compute
    return .ofBool (cond.apply l.ty.storage lhs rhs)
  | .binary _ _ (.logic op) l r => do
    if (← l.compute).truth = op.shortcut then return .ofBool op.shortcut
    else return .ofBool (← r.compute).truth
  | .assign _ _ p e => do
    let v ← e.compute
    p.assign v
    return v
  | .error _ ty => return .zero ty.storage

end Typed.Expr

end Stacklet
