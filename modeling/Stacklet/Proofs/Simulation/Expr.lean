import Stacklet.Proofs.Evaluation.Soundness
import Stacklet.Proofs.Simulation.Forms

/-!
# The code of expressions meets their evaluation

Over a store that fits the layout computing an expression comes to what evaluating it gives
(`compute_agrees`), and so the code of a well-typed expression does what evaluating it does, whatever comes
after it (`Emits.meets`). A jump counts as a step.
-/

namespace Stacklet

open Typed (Expr resultType_cases)

variable {code : Code} {position : Label → Nat} {layout : Layout} {n pc : Nat} {s : List Value} {σ : Store}

/-! ## Evaluation and computation -/

/-- The same result, or the fault with which the machine fails where evaluation halts. -/
inductive Matches {α : Type} : Except Halt α → Except Fault α → Prop
  | ok (a : α) : Matches (.ok a) (.ok a)
  | error {halt : Halt} {fault : Fault} : halt.fault? = some fault → Matches (.error halt) (.error fault)

namespace Layout

/-- An evaluation and a computation that come to the same over every store that fits. -/
def Agrees {α : Type} (layout : Layout) (x : Eval α) (y : Work α) : Prop :=
  ∀ σ, layout.Fits σ → Matches (x σ) (y σ)

variable {α β : Type}

theorem agrees_pure (a : α) : layout.Agrees (pure a) (pure a) := fun σ _ => .ok (a, σ)

theorem Agrees.bind {x : Eval α} {y : Work α} {f : α → Eval β} {g : α → Work β} {P : α → Prop}
    (h : layout.Agrees x y) (keeps : layout.Keeps x P) (rest : ∀ a, P a → layout.Agrees (f a) (g a)) :
    layout.Agrees (x >>= f) (y >>= g) := by
  intro σ fits
  have first := h σ fits
  cases hx : x σ with
  | ok result =>
    rw [hx] at first
    cases hy : y σ <;> rw [hy] at first <;> cases first
    obtain ⟨holds, fits'⟩ := keeps σ result.2 result.1 fits hx
    rw [bind_of_ok hx, bind_of_ok hy]
    exact rest result.1 holds result.2 fits'
  | error halt =>
    rw [hx] at first
    cases hy : y σ <;> rw [hy] at first <;> cases first
    next fault same =>
    rw [bind_of_error hx, bind_of_error hy]
    exact .error same

theorem agrees_get {p : Place} (known : layout.Knows p) : layout.Agrees p.get p.load := by
  intro σ fits
  cases p with
  | ofLocal var =>
    cases held : (Place.ofLocal var).held? σ with
    | some v =>
      rw [Place.load_of_held? held]
      simp only [Place.get, Place.held?_ofLocal.1 held]
      exact .ok (v, σ)
    | none =>
      rw [Place.load_of_none held]
      simp only [Place.get]
      split
      · next v found => exact absurd found (Place.held?_ofLocal_eq_none held v)
      · exact .error rfl
  | ofField field =>
    obtain ⟨v, found, -⟩ := fits.fields known
    rw [Place.load_of_held? (p := .ofField field) found]
    simp only [Place.get, found]
    exact .ok (v, σ)

/-- A store that fits has all known places. -/
theorem Fits.isIn {p : Place} (fits : layout.Fits σ) (known : layout.Knows p) : p.isIn σ = true := by
  cases p with
  | ofLocal var =>
    obtain ⟨k, slot, hk⟩ := known
    obtain ⟨bound, -⟩ := List.getElem?_eq_some_iff.1 hk
    have := fits.size
    exact decide_eq_true (by omega)
  | ofField field =>
    obtain ⟨v, found, -⟩ := fits.fields known
    exact decide_eq_true (Array.getElem?_eq_some_iff.1 found).1

theorem agrees_set {p : Place} (known : layout.Knows p) (v : Value) :
    layout.Agrees (p.set v) (p.assign v) := by
  intro σ fits
  rw [Place.assign_of_isIn (fits.isIn known)]
  exact .ok ((), p.write σ v)

end Layout

open Layout

namespace Typed.Expr

/-- Computing a well-typed expression comes to what evaluating it gives. -/
theorem compute_agrees {e : Expr} (wt : e.WellTyped layout.Knows) : layout.Agrees e.eval e.compute := by
  induction e with
  | literal line ty v => exact agrees_pure v.value
  | load line ty p => exact agrees_get wt.1
  | negate line ty e ih => exact (ih wt.1).bind (eval_keeps wt.1) fun v _ => agrees_pure _
  | not line ty e ih => exact (ih wt.1).bind (eval_keeps wt.1) fun v _ => agrees_pure _
  | step line ty op p =>
    obtain ⟨known, rfl, numeric⟩ := wt
    refine (agrees_get known).bind (keeps_get known) fun old _ => ?_
    have changed : (op.changed p.ty.storage old).HasTy p.ty := .ofNumeric numeric (op.kind?_changed _ old)
    exact (agrees_set known _).bind (keeps_set known changed) fun _ _ => agrees_pure _
  | binary line ty op l r ihl ihr =>
    obtain ⟨hl, hr, result⟩ := wt
    cases op with
    | arith op =>
      refine (ihl hl).bind (eval_keeps hl) fun a _ => (ihr hr).bind (eval_keeps hr) fun b _ => ?_
      intro σ _
      change Matches (op.apply ty.storage a b >>= fun v => .ok (v, σ)) _
      cases applied : op.apply ty.storage a b with
      | ok v =>
        rw [ArithOp.work_of_ok applied]
        exact .ok (v, σ)
      | error halt =>
        rw [ArithOp.work_of_error applied, ArithOp.apply_eq_error applied]
        exact .error rfl
    | compare cond =>
      exact (ihl hl).bind (eval_keeps hl) fun a _ => (ihr hr).bind (eval_keeps hr) fun b _ => agrees_pure _
    | logic op =>
      refine (ihl hl).bind (eval_keeps hl) fun a _ => ?_
      split
      · exact agrees_pure _
      · exact (ihr hr).bind (eval_keeps hr) fun b _ => agrees_pure _
  | assign line ty p e ih =>
    obtain ⟨known, he, same, rfl⟩ := wt
    refine (ih he).bind (eval_keeps he) fun v typed => ?_
    rw [same] at typed
    exact (agrees_set known v).bind (keeps_set known typed) fun _ _ => agrees_pure v
  | error => exact wt.elim

end Typed.Expr

/-! ## What is met -/

/-- Storing a value writes the place. -/
theorem Place.store_meets {p : Place} {r : Result} {v : Value} (known : layout.Knows p) (fits : layout.Fits σ)
    (typed : v.HasTy p.ty) (placed : Placed code.instrs position pc p.store.script)
    (rest : Meets code layout.Fits n ⟨pc + codeSize p.store.script, s, p.write σ v⟩ r) :
    Meets code layout.Fits n ⟨pc, v :: p.onAddress s, σ⟩ r :=
  store_backward Meets.backward fits typed.kind (fits.isIn known) placed rest

/-- What meets the rest of an evaluation that matches a computation goes back along instructions. -/
theorem Meets.backward_matches {ok : Store → Prop} (K : Value → Eval (Option Value)) :
    code.Backward ok some fun n p r => ∀ r', Matches r' r → Meets code ok n p (r' >>= fun x => K x.1 x.2) where
  mono h le r' same := (h r' same).mono le
  step hok leads rest le r' same := .step hok leads (rest r' same) le
  fails hok he fails r' same := by
    cases he
    cases same with
    | error halts => exact .fails hok halts fails

/-- The code of an expression meets its evaluation, if what comes after it meets the rest. -/
theorem Emits.meets {e : Expr} {form : Form} {m m' : Nat} {cs : List Call} (h : Emits e form m cs m')
    {K : Value → Eval (Option Value)} (wt : e.WellTyped layout.Knows) (allowed : form.Allows e.ty)
    (placed : Placed code.instrs position pc cs) (fits : layout.Fits σ)
    (rest : form.Post (Meets code layout.Fits) position Value.HasTy layout.Fits n (pc + codeSize cs) s e.ty K) :
    Meets code layout.Fits n ⟨pc, s, σ⟩ ((e.eval >>= K) σ) := by
  have met {n : Nat} {p : Point} {v : Value} {σ : Store} (h : Meets code layout.Fits n p (K v σ))
      (r' : Except Halt (Value × Store)) (same : Matches r' ((pure v : Work Value) σ)) :
      Meets code layout.Fits n p (r' >>= fun x => K x.1 x.2) := by
    cases same
    exact h
  refine h.backward (Meets.backward_matches K) fits_discipline (K := pure) wt allowed placed fits ?_ _ ?_
  · cases form with
    | value => exact fun v σ typed fits => met (rest v σ typed fits)
    | effect => exact fun v σ fits => met (rest v σ fits)
    | branch target onTrue =>
      intro v σ typed fits
      have rest := rest v σ typed fits
      split at rest
      · next taken => rw [if_pos taken]; exact met rest
      · next falls => rw [if_neg falls]; exact met rest
  · rw [bind_pure]
    exact Expr.compute_agrees wt σ fits

/-- The code of a condition leads to where its truth is met. -/
theorem Emits.test_meets {c : Expr} {target : Label} {onTrue : Bool} {m m' : Nat} {cs : List Call}
    {K : Bool → Eval (Option Value)} (h : Emits c (.branch target onTrue) m cs m')
    (condition : c.IsCondition layout.Knows) (placed : Placed code.instrs position pc cs)
    (taken : ∀ σ, layout.Fits σ → Meets code layout.Fits (n - 1) ⟨position target, [], σ⟩ (K onTrue σ))
    (falls : ∀ σ, layout.Fits σ → Meets code layout.Fits n ⟨pc + codeSize cs, [], σ⟩ (K (!onTrue) σ))
    (fits : layout.Fits σ) : Meets code layout.Fits n ⟨pc, [], σ⟩ ((c.test >>= K) σ) := by
  rw [Expr.test, bind_assoc]
  refine h.meets condition.1 condition.2 placed fits fun v σ _ fits => ?_
  rw [pure_bind]
  by_cases same : v.truth = onTrue
  · rw [same, beq_self_eq_true, if_pos rfl]
    exact taken σ fits
  · rw [if_neg (by simpa using same), Bool.eq_not_of_ne same]
    exact falls σ fits

end Stacklet
