import Stacklet.Proofs.Assembly.Placed
import Stacklet.Proofs.Lowering.Expr
import Stacklet.Proofs.Simulation.Instr
import Stacklet.Proofs.Typing.Discipline

/-!
# Expressions on the machine

The code of a well-typed expression does what computing it does, whatever comes after it: it leaves the value
on the stack, or jumps by its truth, or drops it, and where computing fails the machine fails with the same
fault (`Emits.backward`). This holds for every property of runs that goes back along instructions and under
every discipline of stores, and for all forms of code along the rules by which they are made.
-/

namespace Stacklet

open Typed (Expr resultType_cases)

variable {ε ρ : Type} {code : Code} {position : Label → Nat} {known : Place → Prop}
  {admits : Value → Ty → Prop} {ok : Store → Prop} {n pc : Nat} {s : List Value} {σ : Store}

/-! ## Places -/

namespace Place

/-- The stack with the address of a place on it. -/
def onAddress (p : Place) (s : List Value) : List Value :=
  match p with
  | .ofLocal _ => s
  | .ofField _ => .ref :: s

section

variable {fault? : ε → Option Fault} {W : Nat → Point → Except ε (ρ × Store) → Prop}
  {r : Except ε (ρ × Store)} {p : Place} {v : Value}

theorem address_backward (back : code.Backward ok fault? W) (hok : ok σ)
    (placed : Placed code.instrs position pc p.address.script)
    (rest : W n ⟨pc + codeSize p.address.script, p.onAddress s, σ⟩ r) : W n ⟨pc, s, σ⟩ r := by
  cases p with
  | ofLocal var => exact rest
  | ofField field => exact back.next placed.1 Instr.does_loadThis hok rest

theorem keepCopy_backward (back : code.Backward ok fault? W) (hok : ok σ)
    (placed : Placed code.instrs position pc p.keepCopy.script)
    (rest : W n ⟨pc + codeSize p.keepCopy.script, v :: p.onAddress (v :: s), σ⟩ r) :
    W n ⟨pc, v :: p.onAddress s, σ⟩ r := by
  cases p with
  | ofLocal var => exact back.next placed.1 Instr.does_dup hok rest
  | ofField field => exact back.next placed.1 Instr.does_dupX1 hok rest

/-- Storing a value writes a place that the store has. -/
theorem store_backward (back : code.Backward ok fault? W) (hok : ok σ) (hk : v.kind? = some p.ty.storage)
    (inside : p.isIn σ = true) (placed : Placed code.instrs position pc p.store.script)
    (rest : W n ⟨pc + codeSize p.store.script, s, p.write σ v⟩ r) : W n ⟨pc, v :: p.onAddress s, σ⟩ r := by
  cases p with
  | ofLocal var => exact back.next placed.1 (Instr.does_store hk (of_decide_eq_true inside)) hok rest
  | ofField field =>
    have found := Array.getElem?_eq_getElem (of_decide_eq_true inside)
    exact back.next placed.1 (Instr.does_putField found) hok rest

end

variable {W : Nat → Point → Except Fault (ρ × Store) → Prop} {p : Place} {v : Value}

/-- Reading a place leaves its value, or fails where it holds nothing. -/
theorem load_backward {K : Value → Work ρ} (back : code.Backward ok some W) (hok : ok σ)
    (kinded : ∀ v, p.held? σ = some v → v.kind? = some p.ty.storage)
    (placed : Placed code.instrs position pc p.read.script)
    (rest : ∀ v, p.held? σ = some v → W n ⟨pc + codeSize p.read.script, v :: s, σ⟩ (K v σ)) :
    W n ⟨pc, s, σ⟩ ((p.load >>= K) σ) := by
  cases held : p.held? σ with
  | some v =>
    rw [bind_of_ok (load_of_held? held)]
    cases p with
    | ofLocal var =>
      exact back.next placed.1 (Instr.does_load (held?_ofLocal.1 held) (kinded v held)) hok (rest v held)
    | ofField field =>
      exact back.next placed.1 Instr.does_loadThis hok
        (back.next placed.2.1 (Instr.does_getField held) hok (rest v held))
  | none =>
    rw [bind_of_error (load_of_none held)]
    cases p with
    | ofLocal var => exact back.fail placed.1 (Instr.load_fails (held?_ofLocal_eq_none held)) rfl hok
    | ofField field =>
      exact back.next placed.1 Instr.does_loadThis hok
        (back.fail placed.2.1 (Instr.getField_fails held) rfl hok)

/-- Storing a value assigns it, or fails where the store does not have the place. -/
theorem assign_backward {K : Unit → Work ρ} (back : code.Backward ok some W) (hok : ok σ)
    (hk : v.kind? = some p.ty.storage) (placed : Placed code.instrs position pc p.store.script)
    (rest : W n ⟨pc + codeSize p.store.script, s, p.write σ v⟩ (K () (p.write σ v))) :
    W n ⟨pc, v :: p.onAddress s, σ⟩ ((p.assign v >>= K) σ) := by
  cases inside : p.isIn σ with
  | true =>
    rw [bind_of_ok (assign_of_isIn inside)]
    exact store_backward back hok hk inside placed rest
  | false =>
    rw [bind_of_error (assign_of_not_isIn inside)]
    cases p with
    | ofLocal var => exact back.fail placed.1 (Instr.store_fails hk (of_decide_eq_false inside)) rfl hok
    | ofField field =>
      have absent := Array.getElem?_eq_none (Nat.not_lt.1 (of_decide_eq_false inside))
      exact back.fail placed.1 (Instr.putField_fails absent) rfl hok

end Place

/-! ## Steps -/

namespace Typed.Expr

variable {p : Place} {op : StepOp} {kind : Kind} {W : Nat → Point → Except Fault (ρ × Store) → Prop}
  {K : Value → Work ρ}

/-- A step gives the value of its place before it or after it. -/
theorem compute_step {line : Line} {ty : Ty} {old : Value} (held : p.held? σ = some old) :
    (Expr.step line ty op p).compute σ =
      .ok (op.result ty.storage old, p.write σ (op.changed ty.storage old)) := by
  rw [compute, bind_of_ok (Place.load_of_held? held),
    bind_of_ok (Place.assign_of_isIn (Place.isIn_of_held? held))]
  rfl

theorem compute_step_of_none {line : Line} {ty : Ty} (absent : p.held? σ = none) :
    (Expr.step line ty op p).compute σ = .error p.unread := by
  rw [compute, bind_of_error (Place.load_of_none absent)]

/-- A step writes its place, and leaves its value if it is wanted. -/
theorem step_backward {line : Line} (back : code.Backward ok some W) (discipline : Discipline known admits ok)
    (hk : p.ty.kind? = some kind) (hp : known p) (hok : ok σ) (wanted : Bool)
    (placed : Placed code.instrs position pc (lowerStep op p wanted).script)
    (rest : ∀ v σ', admits v p.ty → ok σ' →
      W n ⟨pc + codeSize (lowerStep op p wanted).script, if wanted then v :: s else s, σ'⟩ (K v σ')) :
    W n ⟨pc, s, σ⟩ (((Expr.step line p.ty op p).compute >>= K) σ) := by
  have numeric : p.ty.isNumeric := by rw [Ty.isNumeric, hk]; rfl
  have storage : p.ty.storage = kind := Ty.storage_of_kind? hk
  unfold Lower.script lowerStep at placed rest
  simp only [hk] at placed rest
  cases held : p.held? σ with
  | some old =>
    rw [bind_of_ok (compute_step held), storage]
    have admitted := discipline.read hp hok held
    have oldKind : old.kind? = some kind := storage ▸ discipline.kind admitted
    have newKind := op.kind?_changed kind old
    have newAdmitted : admits (op.changed kind old) p.ty :=
      discipline.numeric numeric (newKind.trans (congrArg some storage.symm))
    have hok' := discipline.write hp hok newAdmitted
    have result : admits (op.result kind old) p.ty := by
      rcases op.result_cases kind old with new | same
      · rw [new]
        exact newAdmitted
      · rw [same]
        exact admitted
    have rest := rest _ _ result hok'
    cases p with
    | ofLocal var =>
      have found := Place.held?_ofLocal.1 held
      have inc (s : List Value) := Instr.does_inc (s := s) op found oldKind
      have changed := Place.held?_ofLocal.1 (Place.held?_write_self
        (v := op.changed kind old) (Place.isIn_of_held? held))
      cases wanted with
      | false => cases op <;> exact back.next placed.1 (inc s) hok rest
      | true =>
        cases op with
        | preInc | preDec =>
          exact back.next placed.1 (inc s) hok (back.next placed.2.1 (Instr.does_load changed newKind) hok' rest)
        | postInc | postDec =>
          exact back.next placed.1 (Instr.does_load found oldKind) hok
            (back.next placed.2.1 (inc (old :: s)) hok rest)
    | ofField field =>
      obtain ⟨atThis, atDup, atGet, placed⟩ := placed
      refine back.next atThis Instr.does_loadThis hok (back.next atDup Instr.does_dup hok
        (back.next atGet (Instr.does_getField held) hok ?_))
      have change (s : List Value) := Instr.does_change (s := s) (σ := σ) op oldKind
      cases wanted with
      | false =>
        cases op <;>
          exact back.next placed.1 (Instr.does_one kind) hok (back.next placed.2.1 (change _) hok
            (back.next placed.2.2.1 (Instr.does_putField held) hok rest))
      | true =>
        cases op with
        | preInc | preDec =>
          exact back.next placed.1 (Instr.does_one kind) hok (back.next placed.2.1 (change _) hok
            (back.next placed.2.2.1 Instr.does_dupX1 hok (back.next placed.2.2.2.1
              (Instr.does_putField held) hok rest)))
        | postInc | postDec =>
          exact back.next placed.1 Instr.does_dupX1 hok (back.next placed.2.1 (Instr.does_one kind) hok
            (back.next placed.2.2.1 (change _) hok (back.next placed.2.2.2.1 (Instr.does_putField held) hok
              rest)))
  | none =>
    -- The place is read before anything else is done, in place or not.
    rw [bind_of_error (compute_step_of_none held)]
    cases p with
    | ofLocal var =>
      have absent := Place.held?_ofLocal_eq_none held
      cases wanted <;> cases op
      case true.postInc | true.postDec => exact back.fail placed.1 (Instr.load_fails absent) rfl hok
      all_goals exact back.fail placed.1 (Instr.inc_fails _ absent) rfl hok
    | ofField field =>
      exact back.next placed.1 Instr.does_loadThis hok (back.next placed.2.1 Instr.does_dup hok
        (back.fail placed.2.2.1 (Instr.getField_fails held) rfl hok))

end Typed.Expr

/-! ## Jumps -/

/-- A condition that is tested for its falsity is negated. -/
theorem Cond.test_tested (c : Cond) (onTrue : Bool) (x y : Int32) :
    (if onTrue then c else c.negate).test x y = (c.test x y == onTrue) := by
  cases onTrue with
  | true => exact (beq_true _).symm
  | false => exact (c.test_negate x y).trans (beq_false _).symm

/-- A comparison jumps when the condition has the truth value that it is tested for. -/
theorem compareCalls_backward {fault? : ε → Option Fault} {W : Nat → Point → Except ε (ρ × Store) → Prop}
    {r : Except ε (ρ × Store)} {cond : Cond} {kind : Kind} {target : Label} {onTrue : Bool} {lhs rhs : Value}
    (back : code.Backward ok fault? W) (hl : lhs.kind? = some kind) (hr : rhs.kind? = some kind) (hok : ok σ)
    (placed : Placed code.instrs position pc (compareCalls cond kind target onTrue))
    (rest : if (cond.apply kind lhs rhs == onTrue) = true then W (n - 1) ⟨position target, s, σ⟩ r
      else W n ⟨pc + codeSize (compareCalls cond kind target onTrue), s, σ⟩ r) :
    W n ⟨pc, rhs :: lhs :: s, σ⟩ r := by
  have left := Value.exists_of_kind hl
  have right := Value.exists_of_kind hr
  cases kind with
  | int =>
    obtain ⟨x, rfl⟩ := left
    obtain ⟨y, rfl⟩ := right
    obtain ⟨offset, at_pc, leads⟩ := placed.1
    refine back.branch at_pc Instr.does_ifCompare leads hok ?_
    rw [Cond.test_tested]
    cases cond <;> exact rest
  | long =>
    obtain ⟨x, rfl⟩ := left
    obtain ⟨y, rfl⟩ := right
    obtain ⟨at_pc, ⟨offset, at_jump, leads⟩, -⟩ := placed
    refine back.next at_pc (fun _ => ⟨_, rfl⟩) hok (back.branch at_jump Instr.does_ifZero leads hok ?_)
    rw [Cond.test_tested, Cond.test_compareLongs]
    exact rest
  | double =>
    obtain ⟨x, rfl⟩ := left
    obtain ⟨y, rfl⟩ := right
    obtain ⟨at_pc, ⟨offset, at_jump, leads⟩, -⟩ := placed
    have compares : (if cond = .lt ∨ cond = .le then Instr.dcmpg else .dcmpl).Does (.double y :: .double x :: s)
        σ .next (.int (compareDoubles (if cond = .lt ∨ cond = .le then 1 else -1) x y) :: s) σ := by
      split <;> exact fun _ => ⟨_, rfl⟩
    refine back.next at_pc compares hok (back.branch at_jump Instr.does_ifZero leads hok ?_)
    rw [Cond.test_tested, Cond.test_compareDoubles]
    exact rest

/-! ## Expressions -/

/-- What has to hold where code of a form ends, for the rest of a computation: with the value on the stack,
without it, or at one of two positions by its truth. -/
def Form.Post (W : Nat → Point → Except ε (ρ × Store) → Prop) (position : Label → Nat)
    (admits : Value → Ty → Prop) (ok : Store → Prop) (n pc : Nat) (s : List Value) (ty : Ty)
    (K : Value → StateT Store (Except ε) ρ) : Form → Prop
  | .value => ∀ v σ, admits v ty → ok σ → W n ⟨pc, v :: s, σ⟩ (K v σ)
  | .effect => ∀ v σ, ok σ → W n ⟨pc, s, σ⟩ (K v σ)
  | .branch target onTrue => ∀ v σ, admits v ty → ok σ →
    if (v.truth == onTrue) = true then W (n - 1) ⟨position target, s, σ⟩ (K v σ)
    else W n ⟨pc, s, σ⟩ (K v σ)

/-- Whether an expression may have code of a form: only truth values are branched on. -/
def Form.Allows (ty : Ty) : Form → Prop
  | .branch .. => ty = .boolean
  | _ => True

namespace Typed.Expr

/-- An expression that is decided by jumps is a truth value. -/
theorem WellTyped.boolean_of_isDecided {e : Expr} (wt : e.WellTyped known) (decided : e.isDecided = true) :
    e.ty = .boolean := by
  cases e with
  | not => exact wt.2.2
  | binary line ty op l r =>
    have result := (resultType_cases wt.2.2).2
    cases op with
    | arith => cases decided
    | compare => exact result
    | logic => exact result.1
  | _ => cases decided

/-- Its value is made from its truth. -/
theorem compute_bind_of_isDecided {e : Expr} (decided : e.isDecided = true) (K : Value → Work ρ) :
    e.compute >>= K = e.compute >>= fun v => K (.ofBool v.truth) := by
  cases e with
  | not => simp only [compute, bind_assoc, pure_bind, Value.truth_ofBool]
  | binary line ty op l r =>
    cases op with
    | arith => cases decided
    | compare => simp only [compute, bind_assoc, pure_bind, Value.truth_ofBool]
    | logic op =>
      simp only [compute, bind_assoc]
      refine bind_congr fun a => ?_
      split <;> simp only [bind_assoc, pure_bind, Value.truth_ofBool]
  | _ => cases decided

end Typed.Expr

/-- Calls that compute an expression in a form: wherever they stand, they do what computing it does, if what comes after
them does the rest. -/
def Computes (code : Code) (position : Label → Nat) (admits : Value → Ty → Prop) (ok : Store → Prop)
    (W : Nat → Point → Except Fault (ρ × Store) → Prop) (form : Form) (e : Expr) (cs : List Call) : Prop :=
  ∀ ⦃n pc : Nat⦄ ⦃s : List Value⦄ ⦃σ : Store⦄ ⦃K : Value → Work ρ⦄, Placed code.instrs position pc cs → ok σ →
    form.Post W position admits ok n (pc + codeSize cs) s e.ty K → W n ⟨pc, s, σ⟩ ((e.compute >>= K) σ)

namespace Computes

variable {W : Nat → Point → Except Fault (ρ × Store) → Prop} {line : Line} {ty : Ty} {kind : Kind} {e l r : Expr}
  {target : Label} {onTrue : Bool} {m : Nat} {cs cs' : List Call} (back : code.Backward ok some W)
  (discipline : Discipline known admits ok)

include back discipline

/-- A constant in the place of a condition jumps or does not. -/
theorem ofBool (b : Bool) (target : Label) :
    Computes code position admits ok W (.branch target b) (.literal line .boolean (.bool b)) [.jump .goto target] := by
  intro n pc s σ K placed hok rest
  obtain ⟨offset, at_pc, leads⟩ := placed.1
  have rest := rest (.ofBool b) σ (discipline.truth b) hok
  rw [Value.truth_ofBool, beq_self_eq_true, if_pos rfl] at rest
  exact back.jump at_pc Instr.does_goto leads hok rest

theorem negate (hk : ty.kind? = some kind) (wt : (Expr.negate line ty e).WellTyped known)
    (operand : Computes code position admits ok W .value e cs) :
    Computes code position admits ok W .value (.negate line ty e) (cs ++ [.add (.neg kind)]) := by
  intro n pc s σ K placed hok rest
  obtain ⟨-, rfl, numeric⟩ := wt
  obtain ⟨placed, ⟨at_neg, -⟩⟩ := placed_append.1 placed
  rw [codeSize_append, ← Nat.add_assoc] at rest
  rw [Expr.compute, bind_assoc]
  refine operand placed hok fun v σ admitted hok => ?_
  have storage : e.ty.storage = kind := Ty.storage_of_kind? hk
  have kinded : v.kind? = some kind := storage ▸ discipline.kind admitted
  have negated := rest (v.negate e.ty.storage) σ (discipline.numeric numeric (Value.kind?_negate _ _)) hok
  rw [storage] at negated
  rw [storage]
  exact back.next at_neg (Instr.does_neg kinded) hok negated

omit back in
/-- The operand of `!` jumps for the other truth value. -/
theorem not (operand : Computes code position admits ok W (.branch target !onTrue) e cs) :
    Computes code position admits ok W (.branch target onTrue) (.not line .boolean e) cs := by
  intro n pc s σ K placed hok rest
  rw [Expr.compute, bind_assoc]
  refine operand placed hok fun v σ _ hok => ?_
  have rest := rest (.ofBool !v.truth) σ (discipline.truth _) hok
  rw [Value.truth_ofBool] at rest
  cases ht : v.truth <;> cases onTrue <;> rw [ht] at rest <;> exact rest

theorem arith {op : ArithOp} (hk : ty.kind? = some kind)
    (wt : (Expr.binary line ty (.arith op) l r).WellTyped known)
    (left : Computes code position admits ok W .value l cs)
    (right : Computes code position admits ok W .value r cs') :
    Computes code position admits ok W .value (.binary line ty (.arith op) l r)
      (cs ++ (cs' ++ [.add (.arith op kind)])) := by
  intro n pc s σ K placed hok rest
  obtain ⟨-, -, result⟩ := wt
  obtain ⟨same, rfl, numeric⟩ := resultType_cases result
  obtain ⟨placedL, placed⟩ := placed_append.1 placed
  obtain ⟨placedR, ⟨at_op, -⟩⟩ := placed_append.1 placed
  rw [codeSize_append, codeSize_append, ← Nat.add_assoc, ← Nat.add_assoc] at rest
  rw [Expr.compute, bind_assoc]
  refine left placedL hok fun a σ admittedL hok => ?_
  rw [bind_assoc]
  refine right placedR hok fun b σ admittedR hok => ?_
  have storage : l.ty.storage = kind := Ty.storage_of_kind? hk
  have kindA : a.kind? = some kind := storage ▸ discipline.kind admittedL
  have kindB : b.kind? = some kind := by rw [← storage, same]; exact discipline.kind admittedR
  rw [storage]
  rcases Instr.arith_cases kindA kindB with ⟨v, applied, kindV, does⟩ | ⟨halts, fails⟩
  · rw [bind_of_ok (ArithOp.work_of_ok applied)]
    have kinded : v.HasKind l.ty := kindV.trans (congrArg some storage.symm)
    exact back.next at_op does hok (rest v σ (discipline.numeric numeric kinded) hok)
  · rw [bind_of_error (ArithOp.work_of_error halts)]
    exact back.fail at_op fails rfl hok

theorem compare {cond : Cond} (wt : (Expr.binary line ty (.compare cond) l r).WellTyped known)
    (left : Computes code position admits ok W .value l cs)
    (right : Computes code position admits ok W .value r cs') :
    Computes code position admits ok W (.branch target onTrue) (.binary line ty (.compare cond) l r)
      (cs ++ (cs' ++ compareCalls cond l.ty.storage target onTrue)) := by
  intro n pc s σ K placed hok rest
  obtain ⟨-, -, result⟩ := wt
  obtain ⟨same, boolean⟩ := resultType_cases result
  obtain rfl : ty = .boolean := boolean
  obtain ⟨placedL, placed⟩ := placed_append.1 placed
  obtain ⟨placedR, placed⟩ := placed_append.1 placed
  rw [codeSize_append, codeSize_append, ← Nat.add_assoc, ← Nat.add_assoc] at rest
  rw [Expr.compute, bind_assoc]
  refine left placedL hok fun a σ admittedL hok => ?_
  rw [bind_assoc]
  refine right placedR hok fun b σ admittedR hok => ?_
  have rest := rest (.ofBool (cond.apply l.ty.storage a b)) σ (discipline.truth _) hok
  rw [Value.truth_ofBool] at rest
  exact compareCalls_backward back (discipline.kind admittedL) (by rw [same]; exact discipline.kind admittedR) hok
    placed rest

omit back in
/-- The right operand of a logical operation decides it. -/
theorem decided_right {n pc : Nat} {s : List Value} {σ : Store} {K : Value → Work ρ}
    (right : Computes code position admits ok W (.branch target onTrue) r cs)
    (placed : Placed code.instrs position pc cs) (hok : ok σ)
    (rest : (Form.branch target onTrue).Post W position admits ok n (pc + codeSize cs) s .boolean K) :
    W n ⟨pc, s, σ⟩ (((do return .ofBool (← r.compute).truth : Work Value) >>= K) σ) := by
  rw [bind_assoc]
  refine right placed hok fun b σ _ hok => ?_
  have rest := rest (.ofBool b.truth) σ (discipline.truth _) hok
  rw [Value.truth_ofBool] at rest
  exact rest

omit back in
/-- A logical operation that jumps for the truth value of its shortcut jumps from either operand. -/
theorem shortcut {op : LogicOp} (left : Computes code position admits ok W (.branch target op.shortcut) l cs)
    (right : Computes code position admits ok W (.branch target op.shortcut) r cs') :
    Computes code position admits ok W (.branch target op.shortcut) (.binary line .boolean (.logic op) l r)
      (cs ++ cs') := by
  intro n pc s σ K placed hok rest
  obtain ⟨placedL, placedR⟩ := placed_append.1 placed
  rw [codeSize_append, ← Nat.add_assoc] at rest
  rw [Expr.compute, bind_assoc]
  refine left placedL hok fun a σ _ hok => ?_
  by_cases taken : a.truth = op.shortcut
  · have rest := rest (.ofBool op.shortcut) σ (discipline.truth _) hok
    rw [Value.truth_ofBool, beq_self_eq_true, if_pos rfl] at rest
    rw [if_pos taken, taken, beq_self_eq_true, if_pos rfl]
    exact rest
  · rw [if_neg taken, if_neg (by simpa using taken)]
    exact right.decided_right discipline placedR hok rest

/-- One that jumps for the other truth value skips its right operand by the shortcut. -/
theorem skip {op : LogicOp} (left : Computes code position admits ok W (.branch ⟨m⟩ op.shortcut) l cs)
    (right : Computes code position admits ok W (.branch target !op.shortcut) r cs') :
    Computes code position admits ok W (.branch target !op.shortcut) (.binary line .boolean (.logic op) l r)
      (.makeLabel :: (cs ++ (cs' ++ [.bind ⟨m⟩]))) := by
  intro n pc s σ K placed hok rest
  obtain ⟨placedL, placed⟩ := placed_append.1 placed.2
  obtain ⟨placedR, ⟨bound, -⟩⟩ := placed_append.1 placed
  have ends : pc + codeSize (.makeLabel :: (cs ++ (cs' ++ [.bind ⟨m⟩]))) =
      pc + Call.makeLabel.width + codeSize cs + codeSize cs' := by
    simp only [codeSize_cons, codeSize_append, codeSize_nil, Call.width]
    omega
  rw [ends] at rest
  rw [Expr.compute, bind_assoc]
  refine left placedL hok fun a σ _ hok => ?_
  by_cases taken : a.truth = op.shortcut
  · have rest := rest (.ofBool op.shortcut) σ (discipline.truth _) hok
    rw [Value.truth_ofBool, if_neg (by simp)] at rest
    -- The jump of the left operand leads to where the code falls through, and counts as a step there.
    rw [if_pos taken, taken, beq_self_eq_true, if_pos rfl, show position ⟨m⟩ = _ from bound]
    exact back.mono rest (Nat.sub_le n 1)
  · rw [if_neg taken, if_neg (by simpa using taken)]
    exact right.decided_right discipline placedR hok rest

theorem assign {p : Place} (hp : known p) (same : e.ty = p.ty)
    (value : Computes code position admits ok W .value e cs) :
    Computes code position admits ok W .value (.assign line p.ty p e)
      (p.address.script ++ (cs ++ (p.keepCopy.script ++ p.store.script))) := by
  intro n pc s σ K placed hok rest
  obtain ⟨placedA, placed⟩ := placed_append.1 placed
  obtain ⟨placedV, placed⟩ := placed_append.1 placed
  obtain ⟨placedC, placedS⟩ := placed_append.1 placed
  rw [codeSize_append, codeSize_append, codeSize_append, ← Nat.add_assoc, ← Nat.add_assoc, ← Nat.add_assoc] at rest
  rw [Expr.compute, bind_assoc]
  refine Place.address_backward back hok placedA (value placedV hok fun v σ admitted hok => ?_)
  have admitted : admits v p.ty := same ▸ admitted
  rw [bind_assoc]
  refine Place.keepCopy_backward back hok placedC
    (Place.assign_backward back hok (discipline.kind admitted) placedS ?_)
  exact rest v _ admitted (discipline.write hp hok admitted)

theorem assignEffect {p : Place} (hp : known p) (same : e.ty = p.ty)
    (value : Computes code position admits ok W .value e cs) :
    Computes code position admits ok W .effect (.assign line p.ty p e)
      (p.address.script ++ (cs ++ p.store.script)) := by
  intro n pc s σ K placed hok rest
  obtain ⟨placedA, placed⟩ := placed_append.1 placed
  obtain ⟨placedV, placedS⟩ := placed_append.1 placed
  rw [codeSize_append, codeSize_append, ← Nat.add_assoc, ← Nat.add_assoc] at rest
  rw [Expr.compute, bind_assoc]
  refine Place.address_backward back hok placedA (value placedV hok fun v σ admitted hok => ?_)
  have admitted : admits v p.ty := same ▸ admitted
  rw [bind_assoc]
  exact Place.assign_backward back hok (discipline.kind admitted) placedS
    (rest v _ (discipline.write hp hok admitted))

/-- A truth value on the stack is tested. -/
theorem test (boolean : e.ty = .boolean) (value : Computes code position admits ok W .value e cs) :
    Computes code position admits ok W (.branch target onTrue) e
      (cs ++ [.jump (.ifZero (if onTrue then .ne else .eq)) target]) := by
  intro n pc s σ K placed hok rest
  obtain ⟨placed, ⟨⟨offset, at_pc, leads⟩, -⟩⟩ := placed_append.1 placed
  rw [codeSize_append, ← Nat.add_assoc] at rest
  refine value placed hok fun v σ admitted hok => ?_
  have rest := rest v σ admitted hok
  obtain ⟨x, rfl⟩ : ∃ x, v = .int x := by
    have kinded := discipline.kind admitted
    rw [boolean] at kinded
    exact Value.exists_of_kind kinded
  refine back.branch at_pc Instr.does_ifZero leads hok ?_
  rw [show (if onTrue then Cond.ne else .eq) = if onTrue then Cond.ne else Cond.ne.negate from rfl,
    Cond.test_tested]
  exact rest

/-- The outcome of jumps is left on the stack. -/
theorem settle (decided : e.isDecided = true) (boolean : e.ty = .boolean)
    (jumps : Computes code position admits ok W (.branch ⟨m⟩ false) e cs) :
    Computes code position admits ok W .value e (.makeLabel :: .makeLabel :: (cs ++ [.add (.iconst 1),
      .jump .goto ⟨m + 1⟩, .bind ⟨m⟩, .add (.iconst 0), .bind ⟨m + 1⟩])) := by
  intro n pc s σ K placed hok rest
  obtain ⟨placed, at_one, ⟨offset, at_goto, leads⟩, bound, at_zero, bound', -⟩ :=
    placed_append.1 placed.2.2
  have ends : pc + codeSize (.makeLabel :: .makeLabel :: (cs ++ [.add (.iconst 1), .jump .goto ⟨m + 1⟩,
      .bind ⟨m⟩, .add (.iconst 0), .bind ⟨m + 1⟩])) = position ⟨m + 1⟩ := by
    rw [show position ⟨m + 1⟩ = _ from bound']
    simp only [codeSize_cons, codeSize_append, codeSize_nil, Call.width]
    omega
  rw [ends, boolean] at rest
  -- The value is made anew from the outcome of the jumps, which is all that was computed.
  rw [Expr.compute_bind_of_isDecided decided]
  refine jumps placed hok fun v σ _ hok => ?_
  have rest := back.mono (rest (.ofBool v.truth) σ (discipline.truth _) hok) (Nat.sub_le n 1)
  cases ht : v.truth with
  | true =>
    rw [ht] at rest
    exact back.next at_one (fun _ => ⟨_, rfl⟩) hok (back.jump at_goto Instr.does_goto leads hok rest)
  | false =>
    rw [ht, show position ⟨m + 1⟩ = _ from bound'] at rest
    change W (n - 1) ⟨position ⟨m⟩, s, σ⟩ _
    rw [show position ⟨m⟩ = _ from bound]
    exact back.next at_zero (fun _ => ⟨_, rfl⟩) hok rest

omit discipline in
/-- A value that is not wanted is dropped. -/
theorem drop (value : Computes code position admits ok W .value e cs) :
    Computes code position admits ok W .effect e (cs ++ [.add .pop]) := by
  intro n pc s σ K placed hok rest
  obtain ⟨placed, ⟨at_pop, -⟩⟩ := placed_append.1 placed
  rw [codeSize_append, ← Nat.add_assoc] at rest
  refine value placed hok fun v σ _ hok => ?_
  exact back.next at_pop Instr.does_pop hok (rest v σ hok)

end Computes

namespace Emits

variable {e : Expr} {form : Form} {m m' : Nat} {cs : List Call} {W : Nat → Point → Except Fault (ρ × Store) → Prop}

/-- The code of a well-typed expression computes it. -/
theorem computes (h : Emits e form m cs m') (back : code.Backward ok some W) (discipline : Discipline known admits ok)
    (wt : e.WellTyped known) (allowed : form.Allows e.ty) : Computes code position admits ok W form e cs := by
  induction h with
  | @literal line ty v =>
    obtain rfl : ty = v.ty := wt
    intro n pc s σ K placed hok rest
    exact back.next placed.1 (Instr.does_literal v) hok (rest v.value σ (discipline.literal v) hok)
  | @taken line ty b target =>
    obtain rfl : ty = .boolean := wt
    exact .ofBool back discipline b target
  | @untaken line ty b target onTrue _ differs =>
    obtain rfl : ty = .boolean := wt
    intro n pc s σ K placed hok rest
    have rest := rest (.ofBool b) σ (discipline.truth b) hok
    rw [Value.truth_ofBool, if_neg (by simpa using differs)] at rest
    exact rest
  | load =>
    obtain ⟨hp, rfl⟩ := wt
    intro n pc s σ K placed hok rest
    exact Place.load_backward back hok (fun v held => discipline.kind (discipline.read hp hok held)) placed
      fun v held => rest v σ (discipline.read hp hok held) hok
  | negate hk _ ih => exact .negate back discipline hk wt (ih wt.1 trivial)
  | not _ ih =>
    obtain ⟨operand, boolean, rfl⟩ := wt
    exact .not discipline (ih operand boolean)
  | step hk =>
    obtain ⟨hp, rfl, -⟩ := wt
    intro n pc s σ K placed hok rest
    exact Expr.step_backward back discipline hk hp hok true placed rest
  | stepEffect hk =>
    obtain ⟨hp, rfl, -⟩ := wt
    intro n pc s σ K placed hok rest
    exact Expr.step_backward back discipline hk hp hok false placed fun v σ _ hok => rest v σ hok
  | arith hk _ _ ihl ihr => exact .arith back discipline hk wt (ihl wt.1 trivial) (ihr wt.2.1 trivial)
  | compare _ _ ihl ihr => exact .compare back discipline wt (ihl wt.1 trivial) (ihr wt.2.1 trivial)
  | shortcut _ _ ihl ihr =>
    obtain ⟨left, right, result⟩ := wt
    obtain ⟨same, rfl, boolean⟩ := resultType_cases result
    exact .shortcut discipline (ihl left boolean) (ihr right (same ▸ boolean))
  | skip _ _ ihl ihr =>
    obtain ⟨left, right, result⟩ := wt
    obtain ⟨same, rfl, boolean⟩ := resultType_cases result
    exact .skip back discipline (ihl left boolean) (ihr right (same ▸ boolean))
  | assign _ ih =>
    obtain ⟨hp, value, same, rfl⟩ := wt
    exact .assign back discipline hp same (ih value trivial)
  | assignEffect _ ih =>
    obtain ⟨hp, value, same, rfl⟩ := wt
    exact .assignEffect back discipline hp same (ih value trivial)
  | test _ _ _ ih => exact .test back discipline allowed (ih wt trivial)
  | settle decided _ ih =>
    have boolean := wt.boolean_of_isDecided decided
    exact .settle back discipline decided boolean (ih wt boolean)
  | drop _ _ ih => exact .drop back (ih wt trivial)

/-- The code of an expression does what computing it does, if what comes after it does the rest. -/
theorem backward (h : Emits e form m cs m') {K : Value → Work ρ} (back : code.Backward ok some W)
    (discipline : Discipline known admits ok) (wt : e.WellTyped known) (allowed : form.Allows e.ty)
    (placed : Placed code.instrs position pc cs) (hok : ok σ)
    (rest : form.Post W position admits ok n (pc + codeSize cs) s e.ty K) :
    W n ⟨pc, s, σ⟩ ((e.compute >>= K) σ) :=
  h.computes back discipline wt allowed placed hok rest

end Emits

end Stacklet
