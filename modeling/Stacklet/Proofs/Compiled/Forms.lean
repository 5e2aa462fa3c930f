import Stacklet.Proofs.Lowering.Total
import Stacklet.Proofs.Simulation.Forms
import Stacklet.Proofs.Simulation.Fragments

/-!
# The forms of an expression agree

Whatever form of code an expression is given, executing it comes to what computing the expression comes to.
So the code that leaves a truth value and the code that jumps by it agree (`branch_agrees_value`), and a
value that nobody wants may as well not be made (`effect_agrees_value`). A step leaves the same value and
the same place behind whether it is made in place or through a copy of the address (`step_surfaces`).
-/

namespace Stacklet

open Lower
open Typed (Expr)

variable {code : Code} {position : Label → Nat} {known : Place → Prop} {admits : Value → Ty → Prop}
  {ok : Store → Prop} {pc : Nat} {s : List Value} {σ σ' : Store} {e : Expr} {form : Form} {f : Frame} {v : Value}

/-- Leaves the value of an expression on the stack and drops it. -/
def Typed.Expr.lowerDropped (e : Expr) : Lower Unit := do
  e.lowerValue
  add .pop

namespace Form

/-- The code of a form. -/
def lower (e : Expr) : Form → Lower Unit
  | .value => e.lowerValue
  | .branch target onTrue => e.lowerBranch target onTrue
  | .effect => e.lowerEffect

/-- Where code of a form comes to for a result. -/
def Reached (position : Label → Nat) (admits : Value → Ty → Prop) (stop : Nat) (s : List Value) (ty : Ty)
    (v : Value) (σ : Store) : Form → Point → Prop
  | .value, p => admits v ty ∧ p = ⟨stop, v :: s, σ⟩
  | .branch target onTrue, p => p = ⟨if v.truth = onTrue then position target else stop, s, σ⟩
  | .effect, p => p = ⟨stop, s, σ⟩

theorem exists_emits (wt : e.WellTyped known) (form : Form) (s : LowerState) :
    ∃ m, Emits e form s.labels (form.lower e s).calls m := by
  have follows {x : Lower Unit} (rules : e.Follows form x) (succeeds : Succeeds (fun _ => False) x) :
      ∃ m, Emits e form s.labels (x s).calls m := by
    obtain ⟨cs, u, s', made, -⟩ := succeeds s fun _ => False.elim
    obtain ⟨m, -, emits⟩ := rules s cs u s' made
    rw [show x s = _ from made]
    exact ⟨m, emits⟩
  cases form with
  | value => exact follows e.value_emits wt.forms_succeed.value
  | branch target onTrue => exact follows (e.branch_emits target onTrue) (wt.forms_succeed.branch target onTrue)
  | effect => exact follows e.effect_emits wt.effect_succeeds

end Form

/-- The code of an expression comes to where its value is, or fails as computing it does. -/
theorem Emits.settles {m m' : Nat} {cs : List Call} (h : Emits e form m cs m')
    (discipline : Discipline known admits ok) (wt : e.WellTyped known) (allowed : form.Allows e.ty)
    (placed : Placed code.instrs position pc cs) (hok : ok σ) :
    code.Settles (form.Reached position admits (pc + codeSize cs) s e.ty · · ·) ⟨pc, s, σ⟩ (e.compute σ) := by
  rw [← bind_pure e.compute]
  refine h.backward (n := 0) (Code.settles_backward _) discipline wt allowed placed hok ?_
  cases form with
  | value => exact fun v σ admitted _ => ⟨_, .refl, admitted, rfl⟩
  | effect => exact fun v σ _ => ⟨_, .refl, rfl⟩
  | branch target onTrue =>
    intro v σ _ _
    split
    · next taken => exact ⟨_, .refl, congrArg (Point.mk · s σ) (if_pos (eq_of_beq taken)).symm⟩
    · next falls => exact ⟨_, .refl, congrArg (Point.mk · s σ) (if_neg (by simpa using falls)).symm⟩

namespace Fragment

variable (discipline : Discipline known admits ok) (wt : e.WellTyped known) (hok : ok f.store)

include discipline wt hok

theorem settles_form (form : Form) (allowed : form.Allows e.ty) (c : Fragment (form.lower e)) :
    c.Settles f (form.Reached c.position admits c.stop f.stack.items e.ty · · ·) (e.compute f.store) := by
  obtain ⟨m, emits⟩ := form.exists_emits wt c.state
  exact settles_of_only (emits.settles discipline wt allowed c.placed hok)

/-- The value may be dropped after it was made. -/
theorem settles_dropped (c : Fragment e.lowerDropped) :
    c.Settles f (Form.effect.Reached c.position admits c.stop f.stack.items e.ty · · ·) (e.compute f.store) := by
  have succeeds : Succeeds (fun _ => False) e.lowerValue := wt.forms_succeed.value
  obtain ⟨cs, u, s', made, -⟩ := succeeds c.state fun _ => False.elim
  obtain ⟨m, -, emits⟩ := e.value_emits _ _ _ _ made
  have dropped : Makes e.lowerDropped c.state (cs ++ [.add .pop]) () s' :=
    makes_bind.2 ⟨cs, u, s', [.add .pop], made, makes_emit.2 ⟨rfl, rfl⟩, rfl⟩
  have own : c.own = cs ++ [.add .pop] := congrArg Lowered.calls dropped
  have stop : c.stop = c.start + codeSize cs + 1 := by rw [Fragment.stop, own, codeSize_append]; rfl
  have placed := c.placed
  rw [own] at placed
  obtain ⟨placed, ⟨at_pop, -⟩⟩ := placed_append.1 placed
  apply settles_of_only
  rw [← bind_pure e.compute]
  have back : (c.code.only c.start c.stop).Backward ok some _ :=
    Code.settles_backward (Form.effect.Reached c.position admits c.stop f.stack.items e.ty · · ·)
  refine emits.backward (n := 0) back discipline wt trivial placed hok fun v σ _ hok => ?_
  exact back.next (n := 0) at_pop Instr.does_pop hok ⟨_, .refl, congrArg (Point.mk · _ σ) stop.symm⟩

end Fragment

/-! ## Values and jumps -/

theorem exists_jump_mem_compareCalls (cond : Cond) (kind : Kind) (target : Label) (onTrue : Bool) :
    ∃ j, .jump j target ∈ compareCalls cond kind target onTrue := by
  cases kind with
  | int => exact ⟨_, List.mem_singleton_self _⟩
  | long | double => exact ⟨_, List.mem_cons_of_mem _ (List.mem_singleton_self _)⟩

/-- A condition that comes out as it is tested for has a jump to the label. -/
theorem Emits.exists_jump {m m' : Nat} {cs : List Call} {target : Label} {onTrue : Bool}
    (h : Emits e (.branch target onTrue) m cs m') (computed : e.compute σ = .ok (v, σ'))
    (taken : v.truth = onTrue) : ∃ j, .jump j target ∈ cs := by
  generalize branch : Form.branch target onTrue = form at h
  induction h generalizing target onTrue σ σ' v with
  | literal | load | negate | step | stepEffect | arith | assign | assignEffect | settle | drop => cases branch
  | taken =>
    cases branch
    exact ⟨_, List.mem_singleton_self _⟩
  | untaken differs =>
    cases branch
    cases computed
    rw [Literal.value, Value.truth_ofBool] at taken
    exact absurd taken differs
  | not _ ih =>
    cases branch
    obtain ⟨a, σ₁, operand, rest⟩ := bind_eq_ok computed
    cases rest
    rw [Value.truth_ofBool] at taken
    exact ih operand (by rw [← taken, Bool.not_not]) rfl
  | compare =>
    cases branch
    obtain ⟨j, mem⟩ := exists_jump_mem_compareCalls _ _ _ _
    exact ⟨j, List.mem_append_right _ (List.mem_append_right _ mem)⟩
  | @shortcut line ty op l r _ m cs m₁ cs' m' _ _ ihl ihr =>
    cases branch
    obtain ⟨a, σ₁, left, rest⟩ := bind_eq_ok computed
    split at rest
    · next short =>
      obtain ⟨j, mem⟩ := ihl left short rfl
      exact ⟨j, List.mem_append_left _ mem⟩
    · obtain ⟨b, σ₂, right, rest⟩ := bind_eq_ok rest
      cases rest
      rw [Value.truth_ofBool] at taken
      obtain ⟨j, mem⟩ := ihr right taken rfl
      exact ⟨j, List.mem_append_right _ mem⟩
  | @skip line ty op l r _ m cs m₁ cs' m' _ _ _ ihr =>
    cases branch
    obtain ⟨a, σ₁, left, rest⟩ := bind_eq_ok computed
    split at rest
    · cases rest
      rw [Value.truth_ofBool] at taken
      exact absurd taken (Bool.eq_not_self _).1
    · obtain ⟨b, σ₂, right, rest⟩ := bind_eq_ok rest
      cases rest
      rw [Value.truth_ofBool] at taken
      obtain ⟨j, mem⟩ := ihr right taken rfl
      exact ⟨j, List.mem_cons_of_mem _ (List.mem_append_right _ (List.mem_append_left _ mem))⟩
  | test =>
    cases branch
    exact ⟨_, List.mem_append_right _ (List.mem_singleton_self _)⟩

namespace Typed.Expr

/-- The code that leaves the value of a condition and the code that jumps by it come to the same: to one truth
value, with one store, or to one fault. -/
theorem branch_agrees_value {known : Place → Prop} {e : Expr} (single : SingleTyped known)
    (wt : e.WellTyped known) (boolean : e.ty = .boolean) (f : Frame)
    (typed : f.store.Admits known Value.HasTy) :
    (∃ (b : Bool) (σ : Store),
      (∀ c : Fragment e.lowerValue, c.Ends f c.stop (f.stack.push (.int (if b then 1 else 0))) σ) ∧
      ∀ (target : Label) (onTrue : Bool) (c : Fragment (e.lowerBranch target onTrue)),
        if b = onTrue then ∃ pos, (∀ pos', BoundAt c.calls target pos' ↔ pos' = pos) ∧ c.Ends f pos f.stack σ
        else c.Ends f c.stop f.stack σ) ∨
    ∃ fault : Fault, (∀ c : Fragment e.lowerValue, c.FailsWith f fault) ∧
      ∀ (target : Label) (onTrue : Bool) (c : Fragment (e.lowerBranch target onTrue)), c.FailsWith f fault := by
  have discipline := admission_hasTy.discipline single
  have value (c : Fragment e.lowerValue) := Fragment.settles_form discipline wt typed .value trivial c
  have branch (target : Label) (onTrue : Bool) (c : Fragment (e.lowerBranch target onTrue)) :=
    Fragment.settles_form discipline wt typed (.branch target onTrue) boolean c
  cases computed : e.compute f.store with
  | error fault =>
    rw [computed] at value branch
    exact .inr ⟨fault, value, branch⟩
  | ok result =>
    obtain ⟨v, σ⟩ := result
    rw [computed] at value branch
    refine .inl ⟨v.truth, σ, fun c => ?_, fun target onTrue c => ?_⟩
    · obtain ⟨_, ⟨typed, rfl⟩, ends⟩ := value c
      obtain ⟨b, rfl⟩ := typed.truth boolean
      rw [Value.truth_ofBool]
      exact ends _ rfl
    · obtain ⟨_, rfl, ends⟩ := branch target onTrue c
      have ends := ends f.stack rfl
      by_cases taken : v.truth = onTrue
      · -- A jump that is taken is in the code, and so its label is bound.
        obtain ⟨m, emits⟩ := (Form.branch target onTrue).exists_emits wt c.state
        obtain ⟨j, mem⟩ := emits.exists_jump computed taken
        rw [if_pos taken] at ends ⊢
        exact ⟨_, c.boundAt_iff_of_jump mem, ends⟩
      · rw [if_neg taken] at ends ⊢
        exact ends

/-- A condition with a double that may be no number, an assignment and a step that wraps around: it is
`!(d < 1.5) && (b = n++ > 0)` with a double `d`, a truth value `b` and a field `n`. -/
def guard : Expr :=
  .binary 1 .boolean (.logic .and)
    (.not 1 .boolean (.binary 1 .boolean (.compare .lt) (.load 1 .double (.ofLocal ⟨1, .double⟩))
      (.literal 1 .double (.double 1.5))))
    (.assign 1 .boolean (.ofLocal ⟨2, .boolean⟩) (.binary 1 .boolean (.compare .gt)
      (.step 1 .long .postInc (.ofField ⟨0, .long⟩)) (.literal 1 .long (.long 0))))

/-- A frame in which the double is no number, the truth value was never written and the field is the greatest
long. -/
def guarded : Frame :=
  ⟨Stack.empty.push (.int 7), #[some .ref, some (.double (0.0 / 0.0)), none], #[.long 9223372036854775807], 1⟩

/-- The step wraps around and the condition holds, so that one jump is taken and the other one is not. -/
theorem guard_agrees :
    ∃ (value : Fragment guard.lowerValue) (whenTrue : Fragment (guard.lowerBranch ⟨0⟩ true))
      (whenFalse : Fragment (guard.lowerBranch ⟨0⟩ false)) (σ : Store),
      value.Ends guarded value.stop (guarded.stack.push (.int 1)) σ ∧
      (∃ pos, BoundAt whenTrue.calls ⟨0⟩ pos ∧ whenTrue.Ends guarded pos guarded.stack σ) ∧
      whenFalse.Ends guarded whenFalse.stop guarded.stack σ := by
  have value : Nonempty (Fragment guard.lowerValue) := Fragment.nonempty_of_assembles ⟨0, []⟩ [.add (.iconst 7)]
    [.add (.arith .add .int), .add (.retValue .int)] ⟨0.5, true⟩ "Guard" 3 [⟨"n", .long⟩] (by decide +kernel)
  have branch (onTrue : Bool) : Nonempty (Fragment (guard.lowerBranch ⟨0⟩ onTrue)) :=
    Fragment.nonempty_of_assembles ⟨1, []⟩ [.makeLabel, .add (.iconst 7)]
      [.add (.retValue .int), .bind ⟨0⟩, .add (.retValue .int)] ⟨0.5, true⟩ "Guard" 3 [⟨"n", .long⟩]
      (by cases onTrue <;> decide +kernel)
  obtain ⟨value⟩ := value
  obtain ⟨whenTrue⟩ := branch true
  obtain ⟨whenFalse⟩ := branch false
  let layout : Layout := ⟨[.double, .boolean], [.long]⟩
  have wt : guard.WellTyped layout.Knows :=
    ⟨⟨⟨⟨⟨0, rfl, rfl⟩, rfl⟩, rfl, rfl⟩, rfl, rfl⟩, ⟨⟨1, rfl, rfl⟩, ⟨⟨rfl, rfl, rfl⟩, rfl, rfl⟩, rfl, rfl⟩, rfl⟩
  have typed : guarded.store.Admits layout.Knows Value.HasTy := by
    refine Layout.admits_of (fun {k ty v} hk held => ?_) fun {k ty v} hk held => ?_
    · rcases k with _ | _ | k
      · cases hk
        cases held
        exact .ofNumeric rfl rfl
      · cases held
      · cases hk
    · rcases k with _ | k
      · cases hk
        cases held
        exact .ofNumeric rfl rfl
      · cases hk
  have settled := Fragment.settles_form (admission_hasTy.discipline layout.singleTyped_knows) wt typed .value
    trivial value
  have holds : (guard.compute guarded.store).toOption.any (·.1.truth) = true := by decide +kernel
  cases computed : guard.compute guarded.store with
  | error fault =>
    rw [computed] at holds
    cases holds
  | ok result =>
    rw [computed] at holds settled
    obtain ⟨_, ⟨-, rfl⟩, ends⟩ := settled
    have ends := ends (guarded.stack.push result.1) rfl
    rcases branch_agrees_value layout.singleTyped_knows wt rfl guarded typed with
      ⟨b, σ, pushes, jumps⟩ | ⟨fault, fails, -⟩
    · obtain ⟨-, same, -⟩ := ends.unique (pushes value) (Nat.le_refl _) (Nat.le_refl _)
      have pushed : Value.ofBool b = result.1 := (List.cons.inj (congrArg Stack.items same)).1
      have holds : result.1.truth = true := holds
      rw [← pushed, Value.truth_ofBool] at holds
      subst holds
      obtain ⟨pos, bound, ends⟩ := jumps ⟨0⟩ true whenTrue
      exact ⟨value, whenTrue, whenFalse, σ, pushes value, ⟨pos, (bound pos).2 rfl, ends⟩,
        jumps ⟨0⟩ false whenFalse⟩
    · exact absurd (fails value) (ends.not_failsWith (Nat.le_refl _) fault)

/-! ## Values and effects -/

/-- The code that has the effect of an expression and the code that leaves its value and drops it come to the
same: they leave the stack as it was, with one store, or fail with one fault. The value alone is one value
more. -/
theorem effect_agrees_value {known : Place → Prop} {e : Expr} (single : SingleTyped known)
    (wt : e.WellTyped known) (f : Frame) (kinded : f.store.Admits known Value.HasKind) :
    (∃ (v : Value) (σ : Store),
      (∀ c : Fragment e.lowerEffect, c.Ends f c.stop f.stack σ) ∧
      (∀ c : Fragment e.lowerDropped, c.Ends f c.stop f.stack σ) ∧
      ∀ c : Fragment e.lowerValue, c.Ends f c.stop (f.stack.push v) σ) ∨
    ∃ fault : Fault, (∀ c : Fragment e.lowerEffect, c.FailsWith f fault) ∧
      (∀ c : Fragment e.lowerDropped, c.FailsWith f fault) ∧
      ∀ c : Fragment e.lowerValue, c.FailsWith f fault := by
  have discipline := admission_hasKind.discipline single
  have effect (c : Fragment e.lowerEffect) := Fragment.settles_form discipline wt kinded .effect trivial c
  have dropped (c : Fragment e.lowerDropped) := Fragment.settles_dropped discipline wt kinded c
  have value (c : Fragment e.lowerValue) := Fragment.settles_form discipline wt kinded .value trivial c
  cases computed : e.compute f.store with
  | error fault =>
    rw [computed] at effect dropped value
    exact .inr ⟨fault, effect, dropped, value⟩
  | ok result =>
    obtain ⟨v, σ⟩ := result
    rw [computed] at effect dropped value
    refine .inl ⟨v, σ, fun c => ?_, fun c => ?_, fun c => ?_⟩
    · obtain ⟨_, rfl, ends⟩ := effect c
      exact ends f.stack rfl
    · obtain ⟨_, rfl, ends⟩ := dropped c
      exact ends f.stack rfl
    · obtain ⟨_, ⟨-, rfl⟩, ends⟩ := value c
      exact ends (f.stack.push v) rfl

/-- An assignment with an assignment and a step inside it: `r = (k = r) && n-- < 0` with a truth value `k`, a
long `n` and a field `r`. -/
def latch : Expr :=
  .assign 1 .boolean (.ofField ⟨0, .boolean⟩) (.binary 1 .boolean (.logic .and)
    (.assign 1 .boolean (.ofLocal ⟨1, .boolean⟩) (.load 1 .boolean (.ofField ⟨0, .boolean⟩)))
    (.binary 1 .boolean (.compare .lt) (.step 1 .long .postDec (.ofLocal ⟨2, .long⟩))
      (.literal 1 .long (.long 0))))

/-- A frame in which the field is an int that is no truth value, and the long is the least one. -/
def latched : Frame :=
  ⟨Stack.empty.push (.int 7), #[some .ref, none, some (.long (-9223372036854775808))], #[.int 7], 1⟩

/-- All three forms are executed, and change the same. -/
theorem latch_agrees :
    ∃ (effect : Fragment latch.lowerEffect) (dropped : Fragment latch.lowerDropped)
      (value : Fragment latch.lowerValue) (v : Value) (σ : Store),
      effect.Ends latched effect.stop latched.stack σ ∧ dropped.Ends latched dropped.stop latched.stack σ ∧
      value.Ends latched value.stop (latched.stack.push v) σ := by
  let fields : List FieldDecl := [⟨"r", .boolean⟩]
  let before : List Call := [.add (.iconst 7)]
  have effect : Nonempty (Fragment latch.lowerEffect) := Fragment.nonempty_of_assembles ⟨0, []⟩ before
    [.add (.retValue .int)] ⟨0.5, true⟩ "Latch" 3 fields (by decide +kernel)
  have dropped : Nonempty (Fragment latch.lowerDropped) := Fragment.nonempty_of_assembles ⟨0, []⟩ before
    [.add (.retValue .int)] ⟨0.5, true⟩ "Latch" 3 fields (by decide +kernel)
  have value : Nonempty (Fragment latch.lowerValue) := Fragment.nonempty_of_assembles ⟨0, []⟩ before
    [.add (.arith .add .int), .add (.retValue .int)] ⟨0.5, true⟩ "Latch" 3 fields (by decide +kernel)
  obtain ⟨effect⟩ := effect
  obtain ⟨dropped⟩ := dropped
  obtain ⟨value⟩ := value
  let layout : Layout := ⟨[.boolean, .long], [.boolean]⟩
  have wt : latch.WellTyped layout.Knows :=
    ⟨rfl, ⟨⟨⟨0, rfl, rfl⟩, ⟨rfl, rfl⟩, rfl, rfl⟩, ⟨⟨⟨1, rfl, rfl⟩, rfl, rfl⟩, rfl, rfl⟩, rfl⟩, rfl, rfl⟩
  have kinded : latched.store.Admits layout.Knows Value.HasKind := by
    refine Layout.admits_of (fun {k ty v} hk held => ?_) fun {k ty v} hk held => ?_
    · rcases k with _ | _ | k
      · cases held
      · cases hk
        cases held
        rfl
      · cases hk
    · rcases k with _ | k
      · cases hk
        cases held
        rfl
      · cases hk
  have settled := Fragment.settles_form (admission_hasKind.discipline layout.singleTyped_knows) wt kinded .effect
    trivial effect
  have succeeds : (latch.compute latched.store).toBool = true := by decide +kernel
  cases computed : latch.compute latched.store with
  | error fault =>
    rw [computed] at succeeds
    cases succeeds
  | ok result =>
    rw [computed] at settled
    obtain ⟨_, rfl, ends⟩ := settled
    rcases effect_agrees_value layout.singleTyped_knows wt latched kinded with
      ⟨v, σ, ends, ends', ends''⟩ | ⟨fault, fails, -⟩
    · exact ⟨effect, dropped, value, v, σ, ends effect, ends' dropped, ends'' value⟩
    · exact absurd (fails effect) ((ends latched.stack rfl).not_failsWith (Nat.le_refl _) fault)

/-! ## Steps -/

/-- A step of a place that holds a number leaves it holding the one that is greater by one, after `++`, or less by
one, after `--`, and nothing else changed. If its value is wanted it is on the stack: the old number for an operator
behind the place, the new one for an operator before it. -/
theorem step_surfaces {p : Place} {kind : Kind} {f : Frame} {v : Value} (numeric : p.ty.kind? = some kind)
    (held : p.held? f.store = some v) (kinded : v.kind? = some kind) (op : StepOp) (wanted : Bool)
    (c : Fragment (lowerStep op p wanted)) :
    ∃ σ, c.Ends f c.stop (if wanted then f.stack.push (op.result kind v) else f.stack) σ ∧
      p.held? σ = some (op.changed kind v) ∧
      (∀ slot : Nat, (∀ var, p = .ofLocal var → var.slot.toNat ≠ slot) → σ.locals[slot]? = f.locals[slot]?) ∧
      ∀ index : Nat, (∀ field, p = .ofField field → field.index.toNat ≠ index) →
        σ.fields[index]? = f.fields[index]? := by
  have storage : p.ty.storage = kind := Ty.storage_of_kind? numeric
  -- No other place than the one that is stepped has to be known.
  have single : SingleTyped (· = p) := by
    rintro _ _ rfl rfl _
    rfl
  have discipline := admission_hasKind.discipline single
  have wt : (Expr.step 0 p.ty op p).WellTyped (· = p) := ⟨rfl, rfl, by rw [Ty.isNumeric, numeric]; rfl⟩
  have admitted : f.store.Admits (· = p) Value.HasKind := by
    rintro _ w rfl found
    cases held.symm.trans found
    exact kinded.trans (congrArg some storage.symm)
  have computed : (Expr.step 0 p.ty op p).compute f.store =
      .ok (op.result kind v, p.write f.store (op.changed kind v)) := by
    rw [compute_step held, storage]
  refine ⟨p.write f.store (op.changed kind v), ?_, Place.held?_write_self (Place.isIn_of_held? held),
    fun slot other => Place.locals_write other, fun index other => Place.fields_write other⟩
  cases wanted with
  | false =>
    have settled := Fragment.settles_form discipline wt admitted .effect trivial c
    rw [computed] at settled
    obtain ⟨_, rfl, ends⟩ := settled
    exact ends f.stack rfl
  | true =>
    have settled := Fragment.settles_form discipline wt admitted .value trivial c
    rw [computed] at settled
    obtain ⟨_, ⟨-, rfl⟩, ends⟩ := settled
    exact ends (f.stack.push (op.result kind v)) rfl

/-- The greatest int in a local, and the least long in the second of two fields. -/
def utmost : Frame :=
  ⟨Stack.empty.push (.int 7), #[some .ref, some (.int 2147483647)], #[.long 5, .long (-9223372036854775808)], 1⟩

/-- Before the local `++` wraps around and leaves the new int. Behind the first field it leaves the old long, and `--`
behind the second one wraps around, too, and leaves nothing if nothing is wanted. -/
theorem utmost_surfaces :
    (∃ (c : Fragment (lowerStep .preInc (.ofLocal ⟨1, .int⟩) true)) (σ : Store),
      c.Ends utmost c.stop (utmost.stack.push (.int (-2147483648))) σ ∧
      σ.locals[1]? = some (some (.int (-2147483648))) ∧ σ.locals[0]? = some (some .ref) ∧
      σ.fields[0]? = some (.long 5)) ∧
    (∃ (c : Fragment (lowerStep .postInc (.ofField ⟨0, .long⟩) true)) (σ : Store),
      c.Ends utmost c.stop (utmost.stack.push (.long 5)) σ ∧ σ.fields[0]? = some (.long 6) ∧
      σ.fields[1]? = some (.long (-9223372036854775808))) ∧
    ∃ (c : Fragment (lowerStep .postDec (.ofField ⟨1, .long⟩) false)) (σ : Store),
      c.Ends utmost c.stop utmost.stack σ ∧ σ.fields[1]? = some (.long 9223372036854775807) ∧
      σ.fields[0]? = some (.long 5) ∧ σ.locals[1]? = some (some (.int 2147483647)) := by
  let fields : List FieldDecl := [⟨"m", .long⟩, ⟨"n", .long⟩]
  let before : List Call := [.add (.iconst 7)]
  have first : Nonempty (Fragment (lowerStep .preInc (.ofLocal ⟨1, .int⟩) true)) :=
    Fragment.nonempty_of_assembles ⟨0, []⟩ before [.add .pop, .add (.retValue .int)] ⟨0.5, true⟩ "Utmost" 2 fields
      (by decide +kernel)
  have second : Nonempty (Fragment (lowerStep .postInc (.ofField ⟨0, .long⟩) true)) :=
    Fragment.nonempty_of_assembles ⟨0, []⟩ before [.add .pop, .add (.retValue .int)] ⟨0.5, true⟩ "Utmost" 2 fields
      (by decide +kernel)
  have third : Nonempty (Fragment (lowerStep .postDec (.ofField ⟨1, .long⟩) false)) :=
    Fragment.nonempty_of_assembles ⟨0, []⟩ before [.add (.retValue .int)] ⟨0.5, true⟩ "Utmost" 2 fields
      (by decide +kernel)
  obtain ⟨first⟩ := first
  obtain ⟨second⟩ := second
  obtain ⟨third⟩ := third
  refine ⟨?_, ?_, ?_⟩
  · obtain ⟨σ, ends, held, locals, fields⟩ := step_surfaces (f := utmost) rfl rfl rfl .preInc true first
    refine ⟨first, σ, ends, Place.held?_ofLocal.1 held, (locals 0 ?_).trans rfl, (fields 0 ?_).trans rfl⟩
    · rintro _ ⟨⟩
      decide
    · rintro _ ⟨⟩
  · obtain ⟨σ, ends, held, -, fields⟩ := step_surfaces (f := utmost) rfl rfl rfl .postInc true second
    refine ⟨second, σ, ends, held, (fields 1 ?_).trans rfl⟩
    rintro _ ⟨⟩
    decide
  · obtain ⟨σ, ends, held, locals, fields⟩ := step_surfaces (f := utmost) rfl rfl rfl .postDec false third
    refine ⟨third, σ, ends, held, (fields 0 ?_).trans rfl, (locals 1 ?_).trans rfl⟩
    · rintro _ ⟨⟩
      decide
    · rintro _ ⟨⟩

end Typed.Expr

end Stacklet
