import Stacklet.Proofs.Evaluation.Faults
import Stacklet.Proofs.Evaluation.Soundness

/-!
# Disciplines

A discipline says which values are admitted for a type and which stores are in order. Reading a known place
of such a store gives an admitted value, and writing one leaves the store in order. The stores that fit a
layout are in order, and so are those in which its places hold values of their types (`HasTy`), or of the
kinds of their types (`HasKind`), or nothing at all.
-/

namespace Stacklet

/-- Whether a value has the kind in which a type is stored. -/
def Value.HasKind (v : Value) (ty : Ty) : Prop := v.kind? = some ty.storage

/-- Values that are admitted for types have their kinds. All numbers are admitted, and so are the two truth
values. -/
structure Admission (admits : Value → Ty → Prop) : Prop where
  kind : ∀ {v : Value} {ty : Ty}, admits v ty → v.HasKind ty
  numeric : ∀ {v : Value} {ty : Ty}, ty.isNumeric → v.HasKind ty → admits v ty
  truth : ∀ b : Bool, admits (.ofBool b) .boolean

/-- Stores that are in order hold admitted values in known places, and stay in order when one is written. -/
structure Discipline (known : Place → Prop) (admits : Value → Ty → Prop) (ok : Store → Prop) : Prop
    extends Admission admits where
  read : ∀ {p : Place} {σ : Store} {v : Value}, known p → ok σ → p.held? σ = some v → admits v p.ty
  write : ∀ {p : Place} {σ : Store} {v : Value}, known p → ok σ → admits v p.ty → ok (p.write σ v)

theorem admission_hasTy : Admission Value.HasTy where
  kind typed := typed.kind
  numeric numeric kind := .ofNumeric numeric kind
  truth := Value.hasTy_ofBool

theorem admission_hasKind : Admission Value.HasKind where
  kind := id
  numeric _ := id
  truth _ := rfl

theorem Admission.literal {admits : Value → Ty → Prop} (h : Admission admits) (l : Literal) :
    admits l.value l.ty := by
  cases l with
  | bool b => exact h.truth b
  | int | long | double => exact h.numeric rfl rfl

/-- A store in which known places hold admitted values or nothing. -/
def Store.Admits (known : Place → Prop) (admits : Value → Ty → Prop) (σ : Store) : Prop :=
  ∀ (p : Place) (v : Value), known p → p.held? σ = some v → admits v p.ty

/-- Whether known places that are one and the same have one type. -/
def SingleTyped (known : Place → Prop) : Prop :=
  ∀ (p q : Place), known p → known q → q.spot = p.spot → q.ty = p.ty

/-- Writing a known place keeps the values in all of them admitted. -/
theorem Admission.discipline {known : Place → Prop} {admits : Value → Ty → Prop} (h : Admission admits)
    (single : SingleTyped known) : Discipline known admits (Store.Admits known admits) where
  toAdmission := h
  read known ok held := ok _ _ known held
  write known ok typed q w known' held := by
    rcases Place.held?_write held with ⟨same, rfl⟩ | held
    · rw [single _ _ known known' same]
      exact typed
    · exact ok q w known' held

namespace Layout

variable {layout : Layout}

theorem singleTyped_knows (layout : Layout) : SingleTyped layout.Knows := by
  intro p q hp hq same
  cases p with
  | ofLocal var =>
    cases q with
    | ofLocal var' =>
      obtain ⟨k, slot, hk⟩ := hp
      obtain ⟨k', slot', hk'⟩ := hq
      rw [Sum.inl.inj same, slot] at slot'
      cases slot'
      exact Option.some.inj (hk'.symm.trans hk)
    | ofField => cases same
  | ofField field =>
    cases q with
    | ofLocal => cases same
    | ofField field' =>
      have hq : layout.fields[field'.index.toNat]? = some field'.ty := hq
      rw [Sum.inr.inj same] at hq
      exact Option.some.inj (hq.symm.trans hp)

/-- The places of a layout hold admitted values if its slots and fields do. -/
theorem admits_of {admits : Value → Ty → Prop} {σ : Store}
    (locals : ∀ {k : Nat} {ty : Ty} {v : Value}, layout.locals[k]? = some ty →
      σ.locals[k + 1]? = some (some v) → admits v ty)
    (fields : ∀ {k : Nat} {ty : Ty} {v : Value}, layout.fields[k]? = some ty → σ.fields[k]? = some v →
      admits v ty) : σ.Admits layout.Knows admits := by
  intro p v known held
  cases p with
  | ofLocal var =>
    obtain ⟨k, slot, hk⟩ := known
    rw [Place.held?_ofLocal, slot] at held
    exact locals hk held
  | ofField field => exact fields known held

theorem Fits.admits {σ : Store} (fits : layout.Fits σ) : σ.Admits layout.Knows Value.HasTy := by
  refine admits_of fits.locals fun hk held => ?_
  obtain ⟨w, found, typed⟩ := fits.fields hk
  cases found.symm.trans held
  exact typed

theorem fits_discipline : Discipline layout.Knows Value.HasTy layout.Fits where
  toAdmission := admission_hasTy
  read known fits held := fits.admits _ _ known held
  write known fits typed := fits.write known typed

end Layout

end Stacklet
