import Stacklet.Proofs.Evaluation.Stmt
import Stacklet.Proofs.Typing.Program

/-!
# Typed stores

A layout gives every slot but that of the receiver and every field a type. A store fits a layout when
what it holds has these types; writing a place that the layout knows keeps it so. A program that passes
the check only names places that its layout knows, as long as its locals and fields can be counted with
16 bits.
-/

namespace Stacklet

/-- Whether a value is one of a type: it has the kind in which the type is stored, and a boolean is one
of the two truth values. -/
structure Value.HasTy (v : Value) (ty : Ty) : Prop where
  kind : v.kind? = some ty.storage
  truth : ty = .boolean → ∃ b, v = .ofBool b

theorem Value.hasTy_ofBool (b : Bool) : (Value.ofBool b).HasTy .boolean := ⟨rfl, fun _ => ⟨b, rfl⟩⟩

/-- A number of the kind of a numeric type is one of the type. -/
theorem Value.HasTy.ofNumeric {v : Value} {ty : Ty} (numeric : ty.isNumeric)
    (kind : v.kind? = some ty.storage) : v.HasTy ty :=
  ⟨kind, fun h => by rw [h] at numeric; cases numeric⟩

theorem Value.hasTy_zero (ty : Ty) : (Value.zero ty.storage).HasTy ty := by
  constructor
  · cases ty <;> rfl
  · rintro rfl
    exact ⟨false, rfl⟩

/-- The types of the locals, from slot 1 on, and of the fields. -/
structure Layout where
  locals : List Ty
  fields : List Ty

namespace Layout

/-- The places of a layout. -/
def Knows (layout : Layout) : Place → Prop
  | .ofLocal var => ∃ k, var.slot.toNat = k + 1 ∧ layout.locals[k]? = some var.ty
  | .ofField field => layout.fields[field.index.toNat]? = some field.ty

/-- A store that holds what the layout says. -/
structure Fits (layout : Layout) (σ : Store) : Prop where
  size : σ.locals.size = layout.locals.length + 1
  receiver : σ.locals[0]? = some (some .ref)
  locals : ∀ {k : Nat} {ty : Ty} {v : Value}, layout.locals[k]? = some ty →
    σ.locals[k + 1]? = some (some v) → v.HasTy ty
  fields : ∀ {k : Nat} {ty : Ty}, layout.fields[k]? = some ty → ∃ v, σ.fields[k]? = some v ∧ v.HasTy ty

variable {layout : Layout} {σ σ' : Store} {p : Place} {v : Value}

/-- Writing a known place with a value of its type keeps the types. -/
theorem Fits.write (fits : layout.Fits σ) (known : layout.Knows p) (hv : v.HasTy p.ty) :
    layout.Fits (p.write σ v) := by
  cases p with
  | ofLocal var =>
    obtain ⟨k, slot, hk⟩ := known
    refine ⟨?_, ?_, ?_, fits.fields⟩
    · rw [Place.write, Array.size_setIfInBounds]
      exact fits.size
    · rw [Place.write, Array.getElem?_setIfInBounds, if_neg (by omega)]
      exact fits.receiver
    · intro j ty w hj hw
      rw [Place.write, Array.getElem?_setIfInBounds] at hw
      split at hw
      · next same =>
        obtain rfl : j = k := by omega
        split at hw
        · cases hw
          rw [hk] at hj
          cases hj
          exact hv
        · cases hw
      · exact fits.locals hj hw
  | ofField field =>
    refine ⟨fits.size, fits.receiver, fits.locals, ?_⟩
    intro j ty hj
    obtain ⟨old, ho, typed⟩ := fits.fields hj
    rw [Place.write, Array.getElem?_setIfInBounds]
    split
    · next same =>
      subst same
      rw [if_pos (Array.getElem?_eq_some_iff.1 ho).1]
      rw [known] at hj
      cases hj
      exact ⟨v, rfl, hv⟩
    · exact ⟨old, ho, typed⟩

/-- A known place is read without a change, and holds a value of its type. -/
theorem Fits.get (fits : layout.Fits σ) (known : layout.Knows p) (h : p.get σ = .ok (v, σ')) :
    σ' = σ ∧ v.HasTy p.ty := by
  cases p with
  | ofLocal var =>
    obtain ⟨k, slot, hk⟩ := known
    simp only [Place.get] at h
    split at h
    · next w hw =>
      cases h
      rw [slot] at hw
      exact ⟨rfl, fits.locals hk hw⟩
    · cases h
  | ofField field =>
    obtain ⟨w, hw, typed⟩ := fits.fields known
    cases h
    rw [hw]
    exact ⟨rfl, typed⟩

end Layout

/-- The layout of a program. -/
def Typed.Program.layout (p : Typed.Program) : Layout := ⟨p.locals.map (·.ty), p.fields.map (·.ty)⟩

namespace Source.Program

variable {p : Program}

/-- The body of an accepted program is well formed over its layout. -/
theorem wellFormed_layout (accepted : p.check.reports = []) (localTypes : ∀ ty ∈ p.localTypes, ty ≠ .any)
    (fieldTypes : ∀ field ∈ p.fields, field.ty ≠ .any) (locals : p.localTypes.length ≤ 65534)
    (fields : p.fields.length ≤ 65536) :
    Typed.Stmt.AllWellFormed p.check.value.layout.Knows ⟨p.returns, []⟩ p.check.value.body := by
  obtain ⟨types, -, wellFormed⟩ := check_accepts accepted
  obtain ⟨-, slots⟩ := check_slots accepted locals
  apply wellFormed
  · intro place known
    cases place with
    | ofLocal var =>
      obtain ⟨k, -, hk⟩ := known
      exact localTypes _ (types ▸ List.mem_of_getElem? hk)
    | ofField field =>
      have hf : p.check.value.layout.fields[field.index.toNat]? = some field.ty := known
      obtain ⟨decl, mem, same⟩ := List.mem_map.1 (List.mem_of_getElem? hf)
      rw [Place.ty, ← same]
      exact fieldTypes decl mem
  · intro var mem
    obtain ⟨k, hk⟩ := List.mem_iff_getElem?.1 mem
    exact ⟨k, slots k var hk, by rw [Typed.Program.layout, List.getElem?_map, hk]; rfl⟩
  · intro k field hk
    have bound := (List.getElem?_eq_some_iff.1 hk).1
    have index : (fieldAt k field).index.toNat = k := by
      rw [toNat_index_fieldAt, Nat.min_eq_left (by omega)]
    have found : (p.fields.map (·.ty))[k]? = some field.ty := by rw [List.getElem?_map, hk]; rfl
    change (p.fields.map (·.ty))[(fieldAt k field).index.toNat]? = some field.ty
    rw [index]
    exact found

/-- The store at the start of an accepted program fits its layout. -/
theorem fits_start (accepted : p.check.reports = []) (locals : p.localTypes.length ≤ 65534) :
    p.check.value.layout.Fits p.check.value.start := by
  obtain ⟨room, -⟩ := check_slots accepted locals
  have size : max p.check.value.maxLocals.toNat 1 = p.check.value.layout.locals.length + 1 := by
    rw [Typed.Program.layout, List.length_map]
    omega
  constructor
  · rw [Typed.Program.start, Array.size_setIfInBounds, Array.size_replicate, size]
  · rw [Typed.Program.start, Array.getElem?_setIfInBounds_self, if_pos]
    rw [Array.size_replicate]
    omega
  · intro k ty v _ hv
    rw [Typed.Program.start, Array.getElem?_setIfInBounds, if_neg (by omega),
      Array.getElem?_replicate] at hv
    split at hv <;> cases hv
  · intro k ty hk
    rw [Typed.Program.layout, List.getElem?_map] at hk
    obtain ⟨field, hf, rfl⟩ := Option.map_eq_some_iff.1 hk
    refine ⟨.zero field.ty.storage, ?_, Value.hasTy_zero field.ty⟩
    rw [Typed.Program.start, List.getElem?_toArray, List.getElem?_map, hf]
    rfl

end Source.Program

end Stacklet
