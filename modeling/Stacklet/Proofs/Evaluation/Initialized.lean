import Stacklet.Proofs.Evaluation.Stmt
import Stacklet.Proofs.Sequence
import Stacklet.Proofs.Typing.Settled

/-!
# Settled programs read no local before it is written

Evaluating a settled statement over a store in which some locals are written does not halt for a local that
is not (`exec_safe`). These locals stay written however the statement ends; if it ends normally, so is the
local that it declares. A jump out of a list of statements leads to where nothing of the list is visible, so
that what it has left out is not missed there.
-/

namespace Stacklet

/-- A store with places for a number of locals, some of which are written. -/
structure Store.Holds (room : Nat) (written : List LocalVar) (σ : Store) : Prop where
  size : σ.locals.size = room
  values : ∀ var ∈ written, ∃ v, σ.locals[var.slot.toNat]? = some (some v)

theorem Store.Holds.mono {room : Nat} {written written' : List LocalVar} {σ : Store}
    (h : σ.Holds room written) (sub : written' ⊆ written) : σ.Holds room written' :=
  ⟨h.size, fun var mem => h.values var (sub mem)⟩

/-- A written local stays written. -/
theorem Store.Holds.write {room : Nat} {written : List LocalVar} {σ : Store} (h : σ.Holds room written)
    (p : Place) (v : Value) : (p.write σ v).Holds room written := by
  cases p with
  | ofField field => exact ⟨h.size, h.values⟩
  | ofLocal var =>
    refine ⟨?_, fun other mem => ?_⟩
    · rw [Place.write, Array.size_setIfInBounds]
      exact h.size
    · obtain ⟨old, held⟩ := h.values other mem
      obtain ⟨inside, -⟩ := Array.getElem?_eq_some_iff.1 held
      rw [Place.write, Array.getElem?_setIfInBounds]
      split
      · next same => exact ⟨v, by rw [if_pos (same ▸ inside)]⟩
      · exact ⟨old, held⟩

/-- A local that there is room for is written from then on. -/
theorem Store.Holds.declare {room : Nat} {written : List LocalVar} {σ : Store} (h : σ.Holds room written)
    {var : LocalVar} (inside : var.slot.toNat < room) (v : Value) :
    ((Place.ofLocal var).write σ v).Holds room (written ++ [var]) := by
  have kept := h.write (.ofLocal var) v
  refine ⟨kept.size, fun other mem => ?_⟩
  rcases List.mem_append.1 mem with mem | last
  · exact kept.values other mem
  · rw [List.mem_singleton.1 last]
    exact ⟨v, Array.getElem?_setIfInBounds_self_of_lt (h.size ▸ inside)⟩

namespace Eval

/-- A computation that is safe where some locals are written: it does not halt for one that is not, and its
result tells which ones are written afterwards. -/
def Safe {α : Type} (room : Nat) (written : List LocalVar) (x : Eval α) (after : α → List LocalVar) : Prop :=
  ∀ σ : Store, σ.Holds room written → (∀ slot, x σ ≠ .error (.uninitialized slot)) ∧
    ∀ a σ', x σ = .ok (a, σ') → σ'.Holds room (after a)

variable {α β : Type} {room : Nat} {written : List LocalVar} {x : Eval α} {after after' : α → List LocalVar}

theorem safe_pure {a : α} (sub : after a ⊆ written) : Safe room written (pure a) after := by
  intro σ holds
  refine ⟨nofun, fun b σ' run => ?_⟩
  cases run
  exact holds.mono sub

theorem safe_outOfFuel : Safe room written (halt .outOfFuel : Eval α) after :=
  fun _ _ => ⟨nofun, nofun⟩

theorem Safe.mono (h : Safe room written x after) (sub : ∀ a, after' a ⊆ after a) :
    Safe room written x after' :=
  fun σ holds => ⟨(h σ holds).1, fun a σ' run => ((h σ holds).2 a σ' run).mono (sub a)⟩

theorem Safe.bind {g : α → Eval β} {final : β → List LocalVar} (hx : Safe room written x after)
    (hg : ∀ a, Safe room (after a) (g a) final) : Safe room written (x >>= g) final := by
  intro σ holds
  obtain ⟨first, result⟩ := hx σ holds
  refine ⟨fun slot fails => ?_, fun b σ' run => ?_⟩
  · rcases bind_eq_error fails with fails | ⟨a, σ₁, run, fails⟩
    · exact first slot fails
    · exact (hg a σ₁ (result a σ₁ run)).1 slot fails
  · obtain ⟨a, σ₁, run, run'⟩ := bind_eq_ok run
    exact (hg a σ₁ (result a σ₁ run)).2 b σ' run'

theorem safe_get {p : Place} (ready : p.IsReady written) : Safe room written p.get fun _ => written := by
  intro σ holds
  cases p with
  | ofField field =>
    refine ⟨nofun, fun v σ' run => ?_⟩
    cases run
    exact holds
  | ofLocal var =>
    obtain ⟨v, held⟩ := holds.values var (ready.written var rfl)
    have read : (Place.ofLocal var).get σ = .ok (v, σ) := by
      simp only [Place.get, held]
    rw [read]
    refine ⟨nofun, fun w σ' run => ?_⟩
    cases run
    exact holds

theorem safe_set (p : Place) (v : Value) : Safe room written (p.set v) fun _ => written := by
  intro σ holds
  refine ⟨nofun, fun u σ' run => ?_⟩
  cases run
  exact holds.write p v

theorem safe_declare {var : LocalVar} (inside : var.slot.toNat < room) (v : Value) :
    Safe room written ((Place.ofLocal var).set v) fun _ => written ++ [var] := by
  intro σ holds
  refine ⟨nofun, fun u σ' run => ?_⟩
  cases run
  exact holds.declare inside v

end Eval

open Eval

/-! ## Expressions -/

theorem ArithOp.apply_ne_uninitialized {op : ArithOp} {kind : Kind} {a b : Value} {slot : UInt16} :
    op.apply kind a b ≠ .error (.uninitialized slot) := by
  intro h
  cases kind with
  | int | long =>
    simp only [apply] at h
    split at h <;> cases h
  | double => cases h

namespace Typed.Expr

variable {room : Nat} {written : List LocalVar}

theorem safe_apply (op : ArithOp) (kind : Kind) (a b : Value) :
    Safe room written (liftM (op.apply kind a b)) fun _ => written := by
  intro σ holds
  change (∀ slot, (op.apply kind a b >>= fun v => .ok (v, σ)) ≠ .error (.uninitialized slot)) ∧
    ∀ v σ', (op.apply kind a b >>= fun v => .ok (v, σ)) = .ok (v, σ') → σ'.Holds room written
  cases applied : op.apply kind a b with
  | error halt =>
    refine ⟨fun slot fails => ?_, nofun⟩
    cases fails
    exact ArithOp.apply_ne_uninitialized applied
  | ok v =>
    refine ⟨nofun, fun w σ' run => ?_⟩
    cases run
    exact holds

/-- An expression over ready places reads no other local. -/
theorem eval_safe {e : Expr} (wt : e.WellTyped (Place.IsReady written)) :
    Safe room written e.eval fun _ => written := by
  have done {α : Type} (a : α) : Safe room written (pure a) fun _ => written := safe_pure (List.Subset.refl _)
  induction e with
  | literal line ty v => exact done _
  | load line ty p => exact safe_get wt.1
  | negate line ty e ih => exact (ih wt.1).bind fun _ => done _
  | not line ty e ih => exact (ih wt.1).bind fun _ => done _
  | step line ty op p => exact (safe_get wt.1).bind fun _ => (safe_set p _).bind fun _ => done _
  | binary line ty op l r ihl ihr =>
    obtain ⟨hl, hr, -⟩ := wt
    cases op with
    | arith op => exact (ihl hl).bind fun a => (ihr hr).bind fun b => safe_apply op _ a b
    | compare cond => exact (ihl hl).bind fun _ => (ihr hr).bind fun _ => done _
    | logic op =>
      refine (ihl hl).bind fun a => ?_
      split
      · exact done _
      · exact (ihr hr).bind fun _ => done _
  | assign line ty p e ih => exact (ih wt.2.1).bind fun v => (safe_set p v).bind fun _ => done _
  | error => exact wt.elim

theorem test_safe {e : Expr} (wt : e.WellTyped (Place.IsReady written)) :
    Safe room written e.test fun _ => written :=
  (eval_safe wt).bind fun _ => safe_pure (List.Subset.refl _)

end Typed.Expr

/-! ## Statements -/

/-- The locals that are written after a statement, if others are written when it ends normally. -/
def Exit.written (before normally : List LocalVar) : Exit → List LocalVar
  | .normal => normally
  | _ => before

section Parts

variable {room : Nat} {written next final : List LocalVar}

theorem Eval.Safe.andThen {x y : Eval Exit} (hx : Safe room written x (Exit.written written next))
    (hy : Safe room next y (Exit.written written final)) :
    Safe room written (x.andThen y) (Exit.written written final) := by
  refine hx.bind fun exit => ?_
  cases exit with
  | normal => exact hy
  | _ => exact safe_pure (List.Subset.refl _)

/-- However a statement ends, what was written stays written. -/
theorem Eval.Safe.keeps {x : Eval Exit} (h : Safe room written x (Exit.written written (written ++ next))) :
    Safe room written x fun _ => written := by
  refine h.mono fun exit => ?_
  cases exit with
  | normal => exact List.subset_append_left _ _
  | _ => exact List.Subset.refl _

/-- A statement that declares nothing. -/
theorem Eval.Safe.addsNothing {x : Eval Exit} (h : Safe room next x fun _ => written) :
    Safe room next x (Exit.written written (written ++ [])) := by
  refine h.mono fun exit => ?_
  cases exit with
  | normal =>
    rw [List.append_nil]
    exact List.Subset.refl _
  | _ => exact List.Subset.refl _

variable {l : Loop} (test : Safe room written l.test fun _ => written)
  (body : Safe room written l.body fun _ => written) (update : Safe room written l.update fun _ => written)

include update in
theorem Loop.runUpdate_safe {rest : Eval Exit} (hr : Safe room written rest fun _ => written) (left : Nat) :
    Safe room written (l.runUpdate rest left) fun _ => written := by
  induction left with
  | zero => exact safe_outOfFuel
  | succ left ih =>
    refine update.bind fun exit => ?_
    cases exit with
    | normal => exact hr
    | continues t =>
      simp only
      split
      · exact ih
      · exact safe_pure (List.Subset.refl _)
    | breaks t => exact safe_pure (List.Subset.refl _)
    | returns value => exact safe_pure (List.Subset.refl _)

include body update in
theorem Loop.pass_safe (fuel : Nat) {rest : Eval Exit} (hr : Safe room written rest fun _ => written) :
    Safe room written (l.pass fuel rest) fun _ => written := by
  refine body.bind fun exit => ?_
  split
  · exact Loop.runUpdate_safe update hr fuel
  · exact safe_pure (List.Subset.refl _)

include test body update in
theorem Loop.run_safe (fuel left : Nat) : Safe room written (l.run fuel left) fun _ => written := by
  induction left with
  | zero => exact safe_outOfFuel
  | succ left ih =>
    refine test.bind fun b => ?_
    split
    · exact Loop.pass_safe body update fuel ih
    · exact safe_pure (List.Subset.refl _)

end Parts

namespace Typed.Stmt

/-- The locals that a statement declares, if it is there. -/
def optionLocals : Option Stmt → List LocalVar
  | none => []
  | some s => s.locals

theorem locals_forLoop (line : Line) (target : Target) (init : List Stmt) (c : Option Expr)
    (update : List Stmt) (body : Option Stmt) :
    (forLoop line target init c update body).locals =
      allLocals init ++ (allLocals update ++ optionLocals body) := by
  cases body with
  | none => rw [locals, optionLocals, List.append_nil]
  | some body => rfl

variable {room : Nat}

mutual

/-- A settled statement reads no local but those that are written. They stay written, and so is the local
that it declares if it ends normally. -/
theorem exec_safe (fuel : Nat) (written : List LocalVar) (s : Stmt) (settled : s.Settled written)
    (inside : ∀ var ∈ s.locals, var.slot.toNat < room) :
    Safe room written (s.exec fuel) (Exit.written written (written ++ s.adds)) := by
  have done (exit : Exit) : Safe room written (pure exit) fun _ => written := safe_pure (List.Subset.refl _)
  match s with
  | .block line body => exact (execAll_safe fuel written body settled inside).keeps.addsNothing
  | .declare line var none => exact settled.elim
  | .declare line var (some init) =>
    refine (Expr.eval_safe settled).bind fun v => ?_
    exact (safe_declare (inside var List.mem_cons_self) v).bind fun _ => safe_pure (List.Subset.refl _)
  | .expr line e => exact ((Expr.eval_safe settled).bind fun _ => done _).addsNothing
  | .ifElse line c t none =>
    obtain ⟨condition, ht⟩ := settled
    refine ((Expr.test_safe condition).bind fun b => ?_).addsNothing
    split
    · exact (exec_safe fuel written t ht inside).keeps
    · exact done _
  | .ifElse line c t (some e) =>
    obtain ⟨condition, ht, he⟩ := settled
    refine ((Expr.test_safe condition).bind fun b => ?_).addsNothing
    split
    · exact (exec_safe fuel written t ht fun var mem => inside var (List.mem_append_left _ mem)).keeps
    · exact (exec_safe fuel written e he fun var mem => inside var (List.mem_append_right _ mem)).keeps
  | .whileDo line target c body =>
    obtain ⟨condition, hb⟩ := settled
    have bodySafe := (exec_safe fuel written body hb inside).keeps
    exact (Loop.run_safe (Expr.test_safe condition) bodySafe (done _) fuel fuel).addsNothing
  | .doWhile line target body c =>
    obtain ⟨condition, hb⟩ := settled
    have bodySafe := (exec_safe fuel written body hb inside).keeps
    exact (Loop.pass_safe bodySafe (done _) fuel
      (Loop.run_safe (Expr.test_safe condition) bodySafe (done _) fuel fuel)).addsNothing
  | .forLoop line target init c update body =>
    obtain ⟨hi, hc, hu, hb⟩ := settled
    rw [locals_forLoop] at inside
    have first := execAll_safe fuel written init hi fun var mem => inside var (List.mem_append_left _ mem)
    have next := execAll_safe fuel _ update hu fun var mem =>
      inside var (List.mem_append_right _ (List.mem_append_left _ mem))
    have inner := execOption_safe fuel _ body hb fun var mem =>
      inside var (List.mem_append_right _ (List.mem_append_right _ mem))
    -- The loop runs with the locals of the first part written, which are out of scope behind it.
    refine first.andThen ((Loop.run_safe ?_ inner next.keeps fuel fuel).mono fun _ =>
      List.subset_append_left _ _).addsNothing
    cases c with
    | none => exact safe_pure (List.Subset.refl _)
    | some c => exact Expr.test_safe (hc c rfl)
  | .switch line target d groups =>
    obtain ⟨typed, hg⟩ := settled
    refine ((Expr.eval_safe typed).bind fun v => ?_).addsNothing
    split
    · next k _ => exact (execGroups_safe fuel written k groups hg inside).bind fun _ => done _
    · exact done _
  | .breakOut line none | .breakOut line (some target) | .continueLoop line none
  | .continueLoop line (some target) | .ret line none | .empty line => exact (done _).addsNothing
  | .ret line (some value) => exact ((Expr.eval_safe (settled value rfl)).bind fun _ => done _).addsNothing

/-- Settled statements read no local but those that are written. -/
theorem execAll_safe (fuel : Nat) (written : List LocalVar) (ss : List Stmt) (settled : AllSettled written ss)
    (inside : ∀ var ∈ allLocals ss, var.slot.toNat < room) :
    Safe room written (execAll fuel ss) (Exit.written written (written ++ allAdds ss)) := by
  match ss with
  | [] => exact safe_pure (by rw [allAdds, List.flatMap_nil, List.append_nil]; exact List.Subset.refl _)
  | s :: rest =>
    obtain ⟨first, others⟩ := settled
    have head := exec_safe fuel written s first fun var mem => inside var (List.mem_append_left _ mem)
    have tail := execAll_safe fuel _ rest others fun var mem => inside var (List.mem_append_right _ mem)
    rw [allAdds, List.flatMap_cons, ← List.append_assoc]
    refine head.andThen (tail.mono fun exit => ?_)
    cases exit with
    | normal => exact List.Subset.refl _
    | _ => exact List.subset_append_left _ _

theorem execOption_safe (fuel : Nat) (written : List LocalVar) (s : Option Stmt)
    (settled : OptionSettled written s) (inside : ∀ var ∈ optionLocals s, var.slot.toNat < room) :
    Safe room written (execOption fuel s) fun _ => written := by
  match s with
  | none => exact safe_pure (List.Subset.refl _)
  | some s => exact (exec_safe fuel written s settled inside).keeps

/-- The groups of a switch are safe from any of them on. -/
theorem execGroups_safe (fuel : Nat) (written : List LocalVar) (k : Nat)
    (groups : List (SwitchGroup CaseLabel Stmt)) (settled : GroupsSettled written groups)
    (inside : ∀ var ∈ groupLocals groups, var.slot.toNat < room) :
    Safe room written (execGroups fuel k groups) fun _ => written := by
  match k, groups with
  | _, [] => rw [execGroups]; exact safe_pure (List.Subset.refl _)
  | 0, ⟨labels, stmts⟩ :: rest =>
    have first := execAll_safe fuel written stmts settled.1 fun var mem => inside var (List.mem_append_left _ mem)
    have others := execGroups_safe fuel written 0 rest settled.2 fun var mem =>
      inside var (List.mem_append_right _ mem)
    refine first.keeps.bind fun exit => ?_
    cases exit with
    | normal => exact others
    | _ => exact safe_pure (List.Subset.refl _)
  | k + 1, ⟨labels, stmts⟩ :: rest =>
    exact execGroups_safe fuel written k rest settled.2 fun var mem => inside var (List.mem_append_right _ mem)

end

end Typed.Stmt

end Stacklet
