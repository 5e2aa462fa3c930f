import Stacklet.Lowering.Expr
import Stacklet.Proofs.Evaluation.Expr

/-!
# The code of expressions

`Emits e form n calls n'` says, by one rule for each form of code, which calls lower an expression when
`n` labels have been made before and `n'` after it. Whatever lowering makes of an expression follows the
rules (`value_emits`, `branch_emits`, `effect_emits`), so that facts on code are proved along them.
-/

namespace Stacklet

namespace Lower

/-- A step that succeeds, with the calls that it makes and the state that it leaves. -/
def Makes {α : Type} (x : Lower α) (s : LowerState) (calls : List Call) (a : α) (s' : LowerState) : Prop :=
  x s = ⟨calls, s', .ok a⟩

variable {α β : Type} {s s' : LowerState} {cs : List Call}

theorem makes_bind {x : Lower α} {f : α → Lower β} {b : β} :
    Makes (x >>= f) s cs b s' ↔
      ∃ cs₁ a s₁ cs₂, Makes x s cs₁ a s₁ ∧ Makes (f a) s₁ cs₂ b s' ∧ cs = cs₁ ++ cs₂ := by
  unfold Makes
  simp only [bind]
  constructor
  · intro h
    cases first : x s with
    | mk cs₁ s₁ result =>
      rw [first] at h
      cases result with
      | error e => cases h
      | ok a =>
        cases second : f a s₁ with
        | mk cs₂ s₂ result₂ =>
          simp only [second] at h
          cases h
          exact ⟨cs₁, a, s₁, cs₂, rfl, second, rfl⟩
  · rintro ⟨cs₁, a, s₁, cs₂, first, second, rfl⟩
    simp only [first, second]

theorem makes_pure {a b : α} : Makes (pure a) s cs b s' ↔ b = a ∧ cs = [] ∧ s' = s := by
  unfold Makes
  change (⟨[], s, .ok a⟩ : Lowered α) = _ ↔ _
  rw [Lowered.mk.injEq, Except.ok.injEq]
  exact ⟨fun ⟨hc, hs, ha⟩ => ⟨ha.symm, hc.symm, hs.symm⟩, fun ⟨ha, hc, hs⟩ => ⟨hc.symm, hs.symm, ha.symm⟩⟩

theorem makes_emit {call : Call} {u : Unit} : Makes (emit call) s cs u s' ↔ cs = [call] ∧ s' = s := by
  unfold Makes emit
  rw [Lowered.mk.injEq]
  exact ⟨fun ⟨hc, hs, _⟩ => ⟨hc.symm, hs.symm⟩, fun ⟨hc, hs⟩ => ⟨hc.symm, hs.symm, rfl⟩⟩

theorem makes_label {l : Label} :
    Makes label s cs l s' ↔ l = ⟨s.labels⟩ ∧ cs = [.makeLabel] ∧ s' = ⟨s.labels + 1, s.targets⟩ := by
  unfold Makes label
  rw [Lowered.mk.injEq, Except.ok.injEq]
  exact ⟨fun ⟨hc, hs, ha⟩ => ⟨ha.symm, hc.symm, hs.symm⟩, fun ⟨ha, hc, hs⟩ => ⟨hc.symm, hs.symm, ha.symm⟩⟩

theorem not_makes_fail {e : LowerError} {a : α} : ¬ Makes (fail e) s cs a s' := by
  intro h
  cases h

/-- The calls of a step that makes no labels and registers nothing. -/
def script (x : Lower Unit) : List Call := (x ⟨0, []⟩).calls

/-- A step that does nothing but make the same calls in all states. -/
def IsScript (x : Lower Unit) : Prop := ∀ s, Makes x s x.script () s

theorem IsScript.makes {x : Lower Unit} {u : Unit} (h : IsScript x) :
    Makes x s cs u s' ↔ cs = x.script ∧ s' = s := by
  unfold Makes
  rw [h s, Lowered.mk.injEq]
  exact ⟨fun ⟨hc, hs, _⟩ => ⟨hc.symm, hs.symm⟩, fun ⟨hc, hs⟩ => ⟨hc.symm, hs.symm, rfl⟩⟩

end Lower

namespace Place

open Lower

theorem isScript_address (p : Place) : IsScript p.address := by cases p <;> exact fun _ => rfl

theorem isScript_keepCopy (p : Place) : IsScript p.keepCopy := by cases p <;> exact fun _ => rfl

theorem isScript_store (p : Place) : IsScript p.store := by cases p <;> exact fun _ => rfl

theorem isScript_read (p : Place) : IsScript p.read := by cases p <;> exact fun _ => rfl

end Place

open Lower

/-- What the code of an expression is for: to leave its value on the stack, to jump when it has a truth
value, or to have its effect alone. -/
inductive Form where
  | value
  | branch (target : Label) (onTrue : Bool)
  | effect

/-- The calls that compare two values on the stack and jump. -/
def compareCalls (cond : Cond) (kind : Kind) (target : Label) (onTrue : Bool) : List Call :=
  let tested := if onTrue then cond else cond.negate
  match kind with
  | .int => [.jump (.ifCompare tested) target]
  | .long => [.add .lcmp, .jump (.ifZero tested) target]
  | .double => [.add (if cond = .lt ∨ cond = .le then .dcmpg else .dcmpl), .jump (.ifZero tested) target]

namespace Typed.Expr

/-- Whether the value of an expression is made from the outcome of jumps. -/
def isDecided : Expr → Bool
  | .not .. | .binary _ _ (.compare _) _ _ | .binary _ _ (.logic _) _ _ => true
  | _ => false

/-- Whether an expression is a truth value as it is written. -/
def isTruth : Expr → Bool
  | .literal _ _ (.bool _) => true
  | _ => false

/-- Whether an expression has code of its own for its effect. -/
def isAction : Expr → Bool
  | .step .. | .assign .. => true
  | _ => false

end Typed.Expr

open Typed (Expr)

/-- The calls that lower an expression in some form, with the number of labels before and after. -/
inductive Emits : Expr → Form → Nat → List Call → Nat → Prop
  | literal {line ty v n} : Emits (.literal line ty v) .value n [.add v.instr] n
  | taken {line ty b target n} :
    Emits (.literal line ty (.bool b)) (.branch target b) n [.jump .goto target] n
  | untaken {line ty b target onTrue n} : b ≠ onTrue →
    Emits (.literal line ty (.bool b)) (.branch target onTrue) n [] n
  | load {line ty p n} : Emits (.load line ty p) .value n p.read.script n
  | negate {line ty e kind n cs n'} : ty.kind? = some kind → Emits e .value n cs n' →
    Emits (.negate line ty e) .value n (cs ++ [.add (.neg kind)]) n'
  | not {line ty e target onTrue n cs n'} : Emits e (.branch target (!onTrue)) n cs n' →
    Emits (.not line ty e) (.branch target onTrue) n cs n'
  | step {line ty op p kind n} : p.ty.kind? = some kind →
    Emits (.step line ty op p) .value n (Expr.lowerStep op p true).script n
  | stepEffect {line ty op p kind n} : p.ty.kind? = some kind →
    Emits (.step line ty op p) .effect n (Expr.lowerStep op p false).script n
  | arith {line ty op l r kind n cs n₁ cs' n'} : ty.kind? = some kind → Emits l .value n cs n₁ →
    Emits r .value n₁ cs' n' →
    Emits (.binary line ty (.arith op) l r) .value n (cs ++ (cs' ++ [.add (.arith op kind)])) n'
  | compare {line ty cond l r target onTrue n cs n₁ cs' n'} : Emits l .value n cs n₁ →
    Emits r .value n₁ cs' n' →
    Emits (.binary line ty (.compare cond) l r) (.branch target onTrue) n
      (cs ++ (cs' ++ compareCalls cond l.ty.storage target onTrue)) n'
  /-- A logical operation that jumps when its shortcut is taken jumps from either operand. -/
  | shortcut {line ty op l r target n cs n₁ cs' n'} : Emits l (.branch target op.shortcut) n cs n₁ →
    Emits r (.branch target op.shortcut) n₁ cs' n' →
    Emits (.binary line ty (.logic op) l r) (.branch target op.shortcut) n (cs ++ cs') n'
  /-- One that jumps when its shortcut is not taken skips its right operand by the shortcut. -/
  | skip {line ty op l r target n cs n₁ cs' n'} : Emits l (.branch ⟨n⟩ op.shortcut) (n + 1) cs n₁ →
    Emits r (.branch target (!op.shortcut)) n₁ cs' n' →
    Emits (.binary line ty (.logic op) l r) (.branch target (!op.shortcut)) n
      (.makeLabel :: (cs ++ (cs' ++ [.bind ⟨n⟩]))) n'
  | assign {line ty p e n cs n'} : Emits e .value n cs n' →
    Emits (.assign line ty p e) .value n
      (p.address.script ++ (cs ++ (p.keepCopy.script ++ p.store.script))) n'
  | assignEffect {line ty p e n cs n'} : Emits e .value n cs n' →
    Emits (.assign line ty p e) .effect n (p.address.script ++ (cs ++ p.store.script)) n'
  /-- An expression that is computed is tested. -/
  | test {e target onTrue n cs n'} : e.isDecided = false → e.isTruth = false → Emits e .value n cs n' →
    Emits e (.branch target onTrue) n
      (cs ++ [.jump (.ifZero (if onTrue then .ne else .eq)) target]) n'
  /-- An expression that is decided by jumps leaves the outcome as a value. -/
  | settle {e n cs n'} : e.isDecided = true → Emits e (.branch ⟨n⟩ false) (n + 2) cs n' →
    Emits e .value n (.makeLabel :: .makeLabel :: (cs ++ [.add (.iconst 1), .jump .goto ⟨n + 1⟩,
      .bind ⟨n⟩, .add (.iconst 0), .bind ⟨n + 1⟩])) n'
  /-- A value that is not wanted is dropped. -/
  | drop {e n cs n'} : e.isAction = false → Emits e .value n cs n' →
    Emits e .effect n (cs ++ [.add .pop]) n'

namespace Typed.Expr

theorem isScript_step {op : StepOp} {p : Place} {kind : Kind} (hk : p.ty.kind? = some kind)
    (wanted : Bool) : IsScript (lowerStep op p wanted) := by
  intro s
  unfold Makes script lowerStep
  rw [hk]
  cases p <;> cases wanted <;> cases op <;> rfl

theorem makes_numericKind {line : Line} {ty : Ty} {s s' : LowerState} {cs : List Call} {kind : Kind} :
    Makes (numericKind line ty) s cs kind s' ↔ ty.kind? = some kind ∧ cs = [] ∧ s' = s := by
  unfold numericKind
  cases hk : ty.kind? with
  | none => exact ⟨fun h => (not_makes_fail h).elim, fun h => by cases h.1⟩
  | some k =>
    rw [makes_pure, Option.some.injEq]
    exact ⟨fun ⟨hk, rest⟩ => ⟨hk.symm, rest⟩, fun ⟨hk, rest⟩ => ⟨hk.symm, rest⟩⟩

theorem makes_step {op : StepOp} {p : Place} {wanted : Bool} {s s' : LowerState} {cs : List Call} {u : Unit}
    (h : Makes (lowerStep op p wanted) s cs u s') :
    (∃ kind, p.ty.kind? = some kind) ∧ cs = (lowerStep op p wanted).script ∧ s' = s := by
  cases hk : p.ty.kind? with
  | none =>
    unfold lowerStep at h
    rw [hk] at h
    exact (not_makes_fail h).elim
  | some kind => exact ⟨⟨kind, rfl⟩, (isScript_step hk wanted).makes.1 h⟩

/-- Code that is lowered by the rules in some form. -/
def Follows (e : Expr) (form : Form) (x : Lower Unit) : Prop :=
  ∀ s cs u s', Makes x s cs u s' → ∃ n, s' = ⟨n, s.targets⟩ ∧ Emits e form s.labels cs n

/-- An expression that is computed follows the rules in both forms if its value does. -/
theorem follows_ofValue {e : Expr} {value : Lower Unit} (computed : e.isDecided = false)
    (other : e.isTruth = false) (h : e.Follows .value value) :
    e.Follows .value (Forms.ofValue value).value ∧
    ∀ target onTrue, e.Follows (.branch target onTrue) ((Forms.ofValue value).branch target onTrue) := by
  refine ⟨h, fun target onTrue s cs u s' made => ?_⟩
  simp only [Forms.ofValue, makes_bind, makes_emit] at made
  obtain ⟨cs₁, _, s₁, _, hv, ⟨rfl, rfl⟩, rfl⟩ := made
  obtain ⟨n, rfl, emits⟩ := h _ _ _ _ hv
  exact ⟨n, rfl, .test computed other emits⟩

/-- An expression that is decided follows the rules in both forms if its jumps do. -/
theorem follows_ofBranch {e : Expr} {branch : Branch} (decided : e.isDecided = true)
    (h : ∀ target onTrue, e.Follows (.branch target onTrue) (branch target onTrue)) :
    e.Follows .value (Forms.ofBranch branch).value ∧
    ∀ target onTrue, e.Follows (.branch target onTrue) ((Forms.ofBranch branch).branch target onTrue) := by
  refine ⟨fun s cs u s' made => ?_, h⟩
  simp only [Forms.ofBranch, Lower.add, goto, place, makes_bind, makes_label, makes_emit] at made
  obtain ⟨_, _, _, _, ⟨rfl, rfl, rfl⟩, ⟨_, _, _, _, ⟨rfl, rfl, rfl⟩, ⟨cs₁, _, s₁, _, hb, rest, rfl⟩, rfl⟩,
    rfl⟩ := made
  obtain ⟨_, _, _, _, ⟨rfl, rfl⟩, ⟨_, _, _, _, ⟨rfl, rfl⟩, ⟨_, _, _, _, ⟨rfl, rfl⟩, ⟨_, _, _, _, ⟨rfl, rfl⟩,
    ⟨rfl, rfl⟩, rfl⟩, rfl⟩, rfl⟩, rfl⟩ := rest
  obtain ⟨n, rfl, emits⟩ := h _ _ _ _ _ _ hb
  exact ⟨n, rfl, .settle decided emits⟩

theorem follows_logic {line : Line} {ty : Ty} {op : LogicOp} {l r : Expr} {lhs rhs : Branch}
    (hl : ∀ target onTrue, l.Follows (.branch target onTrue) (lhs target onTrue))
    (hr : ∀ target onTrue, r.Follows (.branch target onTrue) (rhs target onTrue))
    (target : Label) :
    (Expr.binary line ty (.logic op) l r).Follows (.branch target op.shortcut)
      (do lhs target op.shortcut; rhs target op.shortcut) ∧
    (Expr.binary line ty (.logic op) l r).Follows (.branch target (!op.shortcut)) (do
      let skip ← label
      lhs skip op.shortcut
      rhs target (!op.shortcut)
      place skip) := by
  constructor
  · intro s cs u s' made
    simp only [makes_bind] at made
    obtain ⟨cs₁, _, s₁, cs₂, first, second, rfl⟩ := made
    obtain ⟨n₁, rfl, emitsL⟩ := hl _ _ _ _ _ _ first
    obtain ⟨n₂, rfl, emitsR⟩ := hr _ _ _ _ _ _ second
    exact ⟨n₂, rfl, .shortcut emitsL emitsR⟩
  · intro s cs u s' made
    simp only [place, makes_bind, makes_label, makes_emit] at made
    obtain ⟨_, _, _, _, ⟨rfl, rfl, rfl⟩, ⟨cs₁, _, s₁, _, first, ⟨cs₂, _, s₂, _, second, ⟨rfl, rfl⟩, rfl⟩,
      rfl⟩, rfl⟩ := made
    obtain ⟨n₁, rfl, emitsL⟩ := hl _ _ _ _ _ _ first
    obtain ⟨n₂, rfl, emitsR⟩ := hr _ _ _ _ _ _ second
    exact ⟨n₂, rfl, .skip emitsL emitsR⟩

/-- The two forms of an expression follow the rules. -/
theorem forms_follow (e : Expr) :
    e.Follows .value e.forms.value ∧
    ∀ target onTrue, e.Follows (.branch target onTrue) (e.forms.branch target onTrue) := by
  induction e with
  | literal line ty v =>
    cases v with
    | bool b =>
      constructor
      · intro s cs u s' made
        obtain ⟨rfl, rfl⟩ := makes_emit.1 made
        exact ⟨_, rfl, .literal⟩
      · intro target onTrue s cs u s' made
        simp only [forms, Forms.ofBool] at made
        split at made
        · next same =>
          obtain ⟨rfl, rfl⟩ := makes_emit.1 made
          exact ⟨_, rfl, same ▸ .taken⟩
        · next differ =>
          obtain ⟨-, rfl, rfl⟩ := makes_pure.1 made
          exact ⟨_, rfl, .untaken differ⟩
    | int _ | long _ | double _ =>
      refine follows_ofValue rfl rfl fun s cs u s' made => ?_
      obtain ⟨rfl, rfl⟩ := makes_emit.1 made
      exact ⟨_, rfl, .literal⟩
  | load line ty p =>
    refine follows_ofValue rfl rfl fun s cs u s' made => ?_
    obtain ⟨rfl, rfl⟩ := p.isScript_read.makes.1 made
    exact ⟨_, rfl, .load⟩
  | negate line ty e ih =>
    refine follows_ofValue rfl rfl fun s cs u s' made => ?_
    simp only [Lower.add, makes_bind, makes_numericKind, makes_emit] at made
    obtain ⟨_, kind, _, _, ⟨hk, rfl, rfl⟩, ⟨cs₁, _, s₁, _, he, ⟨rfl, rfl⟩, rfl⟩, rfl⟩ := made
    obtain ⟨n, rfl, emits⟩ := ih.1 _ _ _ _ he
    exact ⟨n, rfl, .negate hk emits⟩
  | not line ty e ih =>
    refine follows_ofBranch rfl fun target onTrue s cs u s' made => ?_
    obtain ⟨n, rfl, emits⟩ := ih.2 _ _ _ _ _ _ made
    exact ⟨n, rfl, .not emits⟩
  | step line ty op p =>
    refine follows_ofValue rfl rfl fun s cs u s' made => ?_
    obtain ⟨⟨kind, hk⟩, rfl, rfl⟩ := makes_step made
    exact ⟨_, rfl, .step hk⟩
  | binary line ty op l r ihl ihr =>
    cases op with
    | arith op =>
      refine follows_ofValue rfl rfl fun s cs u s' made => ?_
      simp only [Lower.add, makes_bind, makes_numericKind, makes_emit] at made
      obtain ⟨_, kind, _, _, ⟨hk, rfl, rfl⟩, ⟨cs₁, _, s₁, _, hl, ⟨cs₂, _, s₂, _, hr, ⟨rfl, rfl⟩, rfl⟩,
        rfl⟩, rfl⟩ := made
      obtain ⟨n₁, rfl, emitsL⟩ := ihl.1 _ _ _ _ hl
      obtain ⟨n₂, rfl, emitsR⟩ := ihr.1 _ _ _ _ hr
      exact ⟨n₂, rfl, .arith hk emitsL emitsR⟩
    | compare cond =>
      refine follows_ofBranch rfl fun target onTrue s cs u s' made => ?_
      simp only [Branch.compare, makes_bind] at made
      obtain ⟨cs₁, _, s₁, _, hl, ⟨cs₂, _, s₂, cs₃, hr, jump, rfl⟩, rfl⟩ := made
      obtain ⟨n₁, rfl, emitsL⟩ := ihl.1 _ _ _ _ hl
      obtain ⟨n₂, rfl, emitsR⟩ := ihr.1 _ _ _ _ hr
      have compared : cs₃ = compareCalls cond l.ty.storage target onTrue ∧ s' = ⟨n₂, s.targets⟩ := by
        cases hk : l.ty.storage with
        | int =>
          rw [hk] at jump
          exact makes_emit.1 jump
        | long | double =>
          rw [hk] at jump
          simp only [Lower.add, makes_bind, makes_emit] at jump
          obtain ⟨_, _, _, _, ⟨rfl, rfl⟩, ⟨rfl, rfl⟩, rfl⟩ := jump
          exact ⟨rfl, rfl⟩
      obtain ⟨rfl, rfl⟩ := compared
      exact ⟨n₂, rfl, .compare emitsL emitsR⟩
    | logic op =>
      cases op with
      | and =>
        refine follows_ofBranch rfl fun target onTrue => ?_
        cases onTrue with
        | false => exact (follows_logic ihl.2 ihr.2 target).1
        | true => exact (follows_logic ihl.2 ihr.2 target).2
      | or =>
        refine follows_ofBranch rfl fun target onTrue => ?_
        cases onTrue with
        | false => exact (follows_logic ihl.2 ihr.2 target).2
        | true => exact (follows_logic ihl.2 ihr.2 target).1
  | assign line ty p e ih =>
    refine follows_ofValue rfl rfl fun s cs u s' made => ?_
    simp only [lowerAssign, if_true, makes_bind, p.isScript_address.makes, p.isScript_keepCopy.makes,
      p.isScript_store.makes] at made
    obtain ⟨_, _, _, _, ⟨rfl, rfl⟩, ⟨cs₁, _, s₁, _, he, ⟨_, _, _, _, ⟨rfl, rfl⟩, ⟨rfl, rfl⟩, rfl⟩, rfl⟩,
      rfl⟩ := made
    obtain ⟨n, rfl, emits⟩ := ih.1 _ _ _ _ he
    exact ⟨n, rfl, .assign emits⟩
  | error line ty => exact follows_ofValue rfl rfl fun s cs u s' made => (not_makes_fail made).elim

theorem value_emits (e : Expr) : e.Follows .value e.lowerValue := (forms_follow e).1

theorem branch_emits (e : Expr) (target : Label) (onTrue : Bool) :
    e.Follows (.branch target onTrue) (e.lowerBranch target onTrue) := (forms_follow e).2 target onTrue

theorem effect_emits (e : Expr) : e.Follows .effect e.lowerEffect := by
  have dropped (value : e.isAction = false) : e.Follows .effect (do e.lowerValue; Lower.add .pop) := by
    intro s cs u s' made
    simp only [Lower.add, makes_bind, makes_emit] at made
    obtain ⟨cs₁, _, s₁, _, hv, ⟨rfl, rfl⟩, rfl⟩ := made
    obtain ⟨n, rfl, emits⟩ := value_emits e _ _ _ _ hv
    exact ⟨n, rfl, .drop value emits⟩
  cases e with
  | step line ty op p =>
    intro s cs u s' made
    obtain ⟨⟨kind, hk⟩, rfl, rfl⟩ := makes_step made
    exact ⟨_, rfl, .stepEffect hk⟩
  | assign line ty p e =>
    intro s cs u s' made
    simp only [lowerEffect, lowerAssign, makes_bind, p.isScript_address.makes, p.isScript_store.makes,
      Bool.false_eq_true, if_false] at made
    obtain ⟨_, _, _, _, ⟨rfl, rfl⟩, ⟨cs₁, _, s₁, _, he, ⟨rfl, rfl⟩, rfl⟩, rfl⟩ := made
    obtain ⟨n, rfl, emits⟩ := value_emits e _ _ _ _ he
    exact ⟨n, rfl, .assignEffect emits⟩
  | _ => exact dropped rfl

end Typed.Expr

end Stacklet
