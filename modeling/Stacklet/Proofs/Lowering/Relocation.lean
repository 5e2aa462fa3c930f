import Stacklet.Proofs.Assembly.Relocation
import Stacklet.Proofs.Lowering.Stmt

/-!
# Lowering behind other code

What is lowered behind other statements finds labels made and constructs registered by them. It makes the same calls
as on its own, with labels numbered behind those made before (`lower_relocates`): the labels that it mentions are its
own, and a jump leads out of the construct that was registered last under its number, which is one of its own as
well. So statements in sequence are lowered by the calls of the first ones and the relocated calls of the others
(`Program.lower_append`).
-/

namespace Stacklet

open Lower

/-- The exits with all labels made `k` labels later. -/
def Exits.shift (k : Nat) (exits : Exits) : Exits :=
  ⟨exits.breakLabel.shift k, exits.continueLabel.map (.shift k)⟩

/-- The state when `k` labels were made and outer constructs were registered before. -/
def LowerState.shift (k : Nat) (outer : List (Target × Exits)) (s : LowerState) : LowerState :=
  ⟨k + s.labels, (s.targets.map fun entry => (entry.1, entry.2.shift k)) ++ outer⟩

/-- A step does behind other code what another one does on its own, up to the numbers of labels. The calls make as
many labels as are counted. -/
def Lower.Relocates (k : Nat) (outer : List (Target × Exits)) {α : Type} (move : α → α) (x y : Lower α) : Prop :=
  ∀ s cs a s', Makes x s cs a s' →
    s'.labels = s.labels + labelsMade cs ∧
      Makes y (s.shift k outer) (cs.map (.shift k)) (move a) (s'.shift k outer)

section

variable {k : Nat} {outer : List (Target × Exits)}

namespace Lower.Relocates

variable {α β : Type} {move : α → α} {move' : β → β}

theorem pure {a b : α} (moved : b = move a) : Relocates k outer move (Pure.pure a) (Pure.pure b) := by
  intro s cs c s' made
  obtain ⟨rfl, rfl, rfl⟩ := makes_pure.1 made
  exact ⟨rfl, makes_pure.2 ⟨moved.symm, rfl, rfl⟩⟩

theorem fail (e : LowerError) {y : Lower α} : Relocates k outer move (Lower.fail e) y :=
  fun _ _ _ _ made => (not_makes_fail made).elim

theorem bind {x y : Lower α} {f g : α → Lower β} (h : Relocates k outer move x y)
    (h' : ∀ a, Relocates k outer move' (f a) (g (move a))) : Relocates k outer move' (x >>= f) (y >>= g) := by
  intro s cs b s' made
  obtain ⟨cs₁, a, s₁, cs₂, first, second, rfl⟩ := makes_bind.1 made
  obtain ⟨count, first⟩ := h s cs₁ a s₁ first
  obtain ⟨count', second⟩ := h' a s₁ cs₂ b s' second
  constructor
  · rw [labelsMade_append]
    omega
  · rw [List.map_append]
    exact makes_bind.2 ⟨_, _, _, _, first, second, rfl⟩

/-- A call that makes no label. -/
theorem emit {call : Call} (none : call.labelsMade = 0) :
    Relocates k outer id (Lower.emit call) (Lower.emit (call.shift k)) := by
  intro s cs u s' made
  obtain ⟨rfl, rfl⟩ := makes_emit.1 made
  refine ⟨?_, makes_emit.2 ⟨rfl, rfl⟩⟩
  rw [labelsMade, labelsMade, none]
  rfl

theorem label : Relocates k outer (.shift k) Lower.label Lower.label := by
  intro s cs l s' made
  obtain ⟨rfl, rfl, rfl⟩ := makes_label.1 made
  exact ⟨rfl, makes_label.2 ⟨rfl, rfl, rfl⟩⟩

theorem register (target : Target) (exits : Exits) :
    Relocates k outer id (Lower.register target exits) (Lower.register target (exits.shift k)) := by
  intro s cs u s' made
  obtain ⟨rfl, rfl⟩ := makes_register.1 made
  exact ⟨rfl, makes_register.2 ⟨rfl, rfl⟩⟩

/-- What is registered before is hidden by what is registered since. -/
theorem exits (target : Target) : Relocates k outer (.shift k) (Lower.exits target) (Lower.exits target) := by
  intro s cs ex s' made
  obtain ⟨found, rfl, rfl⟩ := makes_exits.1 made
  have found' : (s'.shift k outer).targets.lookup target = some (ex.shift k) := by
    rw [LowerState.shift, List.lookup_append, lookup_map_snd, found]
    rfl
  exact ⟨rfl, makes_exits.2 ⟨found', rfl, rfl⟩⟩

/-- Calls that have nothing to do with labels. -/
theorem script {x : Lower Unit} (script : IsScript x) (plain : x.script.all Call.isPlain) :
    Relocates k outer id x x := by
  intro s cs u s' made
  obtain ⟨rfl, rfl⟩ := script.makes.1 made
  have unlabelled := shift_of_isPlain (k := k) plain
  rw [unlabelled.1, unlabelled.2]
  exact ⟨rfl, script.makes.2 ⟨rfl, rfl⟩⟩

theorem placeAll (labels : List Label) :
    Relocates k outer id (Lower.placeAll labels) (Lower.placeAll (labels.map (.shift k))) := by
  induction labels with
  | nil => exact .pure rfl
  | cons l rest ih => exact .bind (.emit rfl) fun _ => ih

end Lower.Relocates

/-! ## Expressions -/

/-- Forms that do behind other code what they do on their own. -/
structure Forms.Relocate (k : Nat) (outer : List (Target × Exits)) (forms : Forms) : Prop where
  value : Relocates k outer id forms.value forms.value
  branch : ∀ target onTrue, Relocates k outer id (forms.branch target onTrue) (forms.branch (target.shift k) onTrue)

namespace Forms.Relocate

theorem ofValue {value : Lower Unit} (h : Relocates k outer id value value) : Relocate k outer (.ofValue value) where
  value := h
  branch _ _ := .bind h fun _ => .emit rfl

theorem ofBranch {branch : Branch}
    (h : ∀ target onTrue, Relocates k outer id (branch target onTrue) (branch (target.shift k) onTrue)) :
    Relocate k outer (.ofBranch branch) where
  value := .bind .label fun _ => .bind .label fun _ => .bind (h _ _) fun _ => .bind (.emit rfl) fun _ =>
    .bind (.emit rfl) fun _ => .bind (.emit rfl) fun _ => .bind (.emit rfl) fun _ => .emit rfl
  branch := h

theorem ofBool (b : Bool) : Relocate k outer (.ofBool b) where
  value := .emit rfl
  branch target onTrue := by
    unfold Forms.ofBool
    simp only
    split
    · exact .emit rfl
    · exact .pure rfl

end Forms.Relocate

namespace Typed.Expr

theorem numericKind_relocates (line : Line) (ty : Ty) :
    Relocates k outer id (numericKind line ty) (numericKind line ty) := by
  unfold numericKind
  split
  · exact .pure rfl
  · exact .fail _

theorem lowerStep_relocates (op : StepOp) (p : Place) (wanted : Bool) :
    Relocates k outer id (lowerStep op p wanted) (lowerStep op p wanted) := by
  cases hk : p.ty.kind? with
  | none =>
    unfold lowerStep
    rw [hk]
    exact .fail _
  | some kind => exact .script (isScript_step hk wanted) (plain_step hk wanted)

theorem lowerAssign_relocates (p : Place) {value : Lower Unit} (h : Relocates k outer id value value) (wanted : Bool) :
    Relocates k outer id (lowerAssign p value wanted) (lowerAssign p value wanted) := by
  have address : Relocates k outer id p.address p.address := .script p.isScript_address p.plain_address
  have keepCopy : Relocates k outer id p.keepCopy p.keepCopy := .script p.isScript_keepCopy p.plain_keepCopy
  have store : Relocates k outer id p.store p.store := .script p.isScript_store p.plain_store
  cases wanted with
  | true => exact .bind address fun _ => .bind h fun _ => .bind keepCopy fun _ => store
  | false => exact .bind address fun _ => .bind h fun _ => store

theorem compare_relocates (cond : Cond) (kind : Kind) {lhs rhs : Lower Unit} (hl : Relocates k outer id lhs lhs)
    (hr : Relocates k outer id rhs rhs) (target : Label) (onTrue : Bool) :
    Relocates k outer id (Branch.compare cond kind lhs rhs target onTrue)
      (Branch.compare cond kind lhs rhs (target.shift k) onTrue) := by
  refine .bind hl fun _ => .bind hr fun _ => ?_
  cases kind with
  | int => exact .emit rfl
  | long | double => exact .bind (.emit rfl) fun _ => .emit rfl

/-- An expression is lowered behind other code as on its own. -/
theorem forms_relocate (e : Expr) : e.forms.Relocate k outer := by
  induction e with
  | literal line ty value =>
    cases value with
    | bool b => exact .ofBool b
    | int | long | double => exact .ofValue (.emit rfl)
  | load line ty place => exact .ofValue (.script place.isScript_read place.plain_read)
  | negate line ty operand ih =>
    exact .ofValue (.bind (numericKind_relocates line ty) fun _ => .bind ih.value fun _ => .emit rfl)
  | not line ty operand ih => exact .ofBranch fun _ _ => ih.branch _ _
  | step line ty op place => exact .ofValue (lowerStep_relocates op place true)
  | binary line ty op lhs rhs ihl ihr =>
    cases op with
    | arith op =>
      exact .ofValue (.bind (numericKind_relocates line ty) fun _ => .bind ihl.value fun _ =>
        .bind ihr.value fun _ => .emit rfl)
    | compare cond => exact .ofBranch (compare_relocates cond _ ihl.value ihr.value)
    | logic op =>
      cases op with
      | and =>
        refine .ofBranch fun target onTrue => ?_
        cases onTrue with
        | true =>
          exact .bind .label fun _ => .bind (ihl.branch _ _) fun _ => .bind (ihr.branch _ _) fun _ => .emit rfl
        | false => exact .bind (ihl.branch _ _) fun _ => ihr.branch _ _
      | or =>
        refine .ofBranch fun target onTrue => ?_
        cases onTrue with
        | true => exact .bind (ihl.branch _ _) fun _ => ihr.branch _ _
        | false =>
          exact .bind .label fun _ => .bind (ihl.branch _ _) fun _ => .bind (ihr.branch _ _) fun _ => .emit rfl
  | assign line ty place value ih => exact .ofValue (lowerAssign_relocates place ih.value true)
  | error line ty => exact .ofValue (.fail _)

theorem lowerValue_relocates (e : Expr) : Relocates k outer id e.lowerValue e.lowerValue := e.forms_relocate.value

theorem lowerBranch_relocates (e : Expr) (target : Label) (onTrue : Bool) :
    Relocates k outer id (e.lowerBranch target onTrue) (e.lowerBranch (target.shift k) onTrue) :=
  e.forms_relocate.branch target onTrue

theorem lowerEffect_relocates (e : Expr) : Relocates k outer id e.lowerEffect e.lowerEffect := by
  cases e with
  | step line ty op place => exact lowerStep_relocates op place false
  | assign line ty place value => exact lowerAssign_relocates place value.lowerValue_relocates false
  | literal | load | negate | not | binary | error => exact .bind (lowerValue_relocates _) fun _ => .emit rfl

end Typed.Expr

/-! ## Switches -/

namespace Typed

/-- The labels planned for a group, made `k` labels later. -/
def shiftGroup (k : Nat) (plan : List (Int32 × Label) × List Label × Option Label) :
    List (Int32 × Label) × List Label × Option Label :=
  (plan.1.map (Arm.relabel (.shift k)), plan.2.1.map (.shift k), plan.2.2.map (.shift k))

/-- The labels planned for a switch, made `k` labels later. -/
def SwitchPlan.shift (k : Nat) (plan : SwitchPlan) : SwitchPlan where
  arms := plan.arms.map (Arm.relabel (.shift k))
  entries := plan.entries.map (List.map (.shift k))
  default? := plan.default?.map (.shift k)

theorem planGroup_relocates (d : Option Label) (labels : List CaseLabel) :
    Relocates k outer (shiftGroup k) (planGroup d labels) (planGroup (d.map (.shift k)) labels) := by
  induction labels generalizing d with
  | nil => exact .pure rfl
  | cons label rest ih =>
    cases label with
    | case value =>
      refine .bind .label fun l => .bind (ih d) ?_
      rintro ⟨arms, entry, d'⟩
      exact .pure rfl
    | otherwise =>
      -- The label of the default is made, or was made for an earlier one.
      cases d with
      | none =>
        refine .bind .label fun l => .bind (ih (some l)) ?_
        rintro ⟨arms, entry, d'⟩
        exact .pure rfl
      | some l =>
        have found : Relocates k outer (.shift k) (Pure.pure l) (Pure.pure (l.shift k)) := .pure rfl
        refine .bind found fun l => .bind (ih (some l)) ?_
        rintro ⟨arms, entry, d'⟩
        exact .pure rfl

theorem planGroups_relocates (d : Option Label) (groups : List (SwitchGroup CaseLabel Stmt)) :
    Relocates k outer (.shift k) (planGroups d groups) (planGroups (d.map (.shift k)) groups) := by
  induction groups generalizing d with
  | nil => exact .pure rfl
  | cons group rest ih =>
    refine .bind (planGroup_relocates d group.labels) ?_
    rintro ⟨arms, entry, d'⟩
    refine .bind (ih d') fun plan => .pure ?_
    simp [SwitchPlan.shift]

theorem SwitchPlan.emit_relocates (plan : SwitchPlan) (done : Label) :
    Relocates k outer id
      (emit (.switch (plan.arms.map (·.1)) (plan.arms.map (·.2)) (plan.default?.getD done)))
      (emit (.switch ((plan.shift k).arms.map (·.1)) ((plan.shift k).arms.map (·.2))
        ((plan.shift k).default?.getD (done.shift k)))) := by
  have moved : Call.switch ((plan.shift k).arms.map (·.1)) ((plan.shift k).arms.map (·.2))
      ((plan.shift k).default?.getD (done.shift k)) =
        .shift k (.switch (plan.arms.map (·.1)) (plan.arms.map (·.2)) (plan.default?.getD done)) := by
    obtain ⟨arms, entries, d⟩ := plan
    cases d <;> simp [Call.shift, SwitchPlan.shift, Arm.relabel]
  rw [moved]
  exact .emit rfl

/-! ## Statements -/

namespace Stmt

mutual

/-- A statement is lowered behind other code as on its own, up to the numbers of labels. -/
theorem lower_relocates (s : Stmt) : Relocates k outer id s.lower s.lower := by
  match s with
  | .block line body => exact lowerAll_relocates body
  | .declare line var none => exact .pure rfl
  | .declare line var (some init) => exact .bind init.lowerValue_relocates fun _ => .emit rfl
  | .expr line e => exact e.lowerEffect_relocates
  | .ifElse line c t none =>
    exact .bind .label fun _ => .bind (c.lowerBranch_relocates _ _) fun _ => .bind (lower_relocates t) fun _ =>
      .emit rfl
  | .ifElse line c t (some e) =>
    exact .bind .label fun _ => .bind (c.lowerBranch_relocates _ _) fun _ => .bind (lower_relocates t) fun _ =>
      .bind .label fun _ => .bind (.emit rfl) fun _ => .bind (.emit rfl) fun _ =>
        .bind (lower_relocates e) fun _ => .emit rfl
  | .whileDo line target c body =>
    exact .bind .label fun _ => .bind .label fun _ => .bind (.register _ _) fun _ => .bind (.emit rfl) fun _ =>
      .bind (c.lowerBranch_relocates _ _) fun _ => .bind (lower_relocates body) fun _ =>
        .bind (.emit rfl) fun _ => .emit rfl
  | .doWhile line target body c =>
    exact .bind .label fun _ => .bind .label fun _ => .bind .label fun _ => .bind (.register _ _) fun _ =>
      .bind (.emit rfl) fun _ => .bind (lower_relocates body) fun _ => .bind (.emit rfl) fun _ =>
        .bind (c.lowerBranch_relocates _ _) fun _ => .emit rfl
  | .forLoop line target init c update body =>
    refine .bind (lowerAll_relocates init) fun _ => .bind .label fun _ => .bind .label fun _ =>
      .bind .label fun _ => .bind .label fun _ => .bind (.register _ _) fun _ => .bind (.emit rfl) fun _ =>
        .bind (.emit rfl) fun _ => .bind (lowerOption_relocates body) fun _ => .bind (.emit rfl) fun _ =>
          .bind (lowerAll_relocates update) fun _ => .bind (.emit rfl) fun _ => ?_
    cases c with
    | none => exact .bind (.emit rfl) fun _ => .emit rfl
    | some c => exact .bind (c.lowerBranch_relocates _ _) fun _ => .emit rfl
  | .switch line target d groups =>
    exact .bind d.lowerValue_relocates fun _ => .bind .label fun done => .bind (.register _ _) fun _ =>
      .bind (planGroups_relocates none groups) fun plan => .bind (plan.emit_relocates done) fun _ =>
        .bind (lowerGroups_relocates plan.entries groups) fun _ => .emit rfl
  | .breakOut line none => exact .pure rfl
  | .breakOut line (some target) => exact .bind (.exits target) fun _ => .emit rfl
  | .continueLoop line none => exact .pure rfl
  | .continueLoop line (some target) =>
    refine .bind (.exits target) ?_
    rintro ⟨breakLabel, continueLabel⟩
    cases continueLabel with
    | none => exact .pure rfl
    | some l => exact .emit rfl
  | .ret line none => exact .emit rfl
  | .ret line (some value) => exact .bind value.lowerValue_relocates fun _ => .emit rfl
  | .empty line => exact .pure rfl

theorem lowerAll_relocates (ss : List Stmt) : Relocates k outer id (lowerAll ss) (lowerAll ss) := by
  match ss with
  | [] => exact .pure rfl
  | s :: rest => exact .bind (lower_relocates s) fun _ => lowerAll_relocates rest

theorem lowerOption_relocates (s : Option Stmt) : Relocates k outer id (lowerOption s) (lowerOption s) := by
  match s with
  | none => exact .pure rfl
  | some s => exact lower_relocates s

theorem lowerGroups_relocates (entries : List (List Label)) (groups : List (SwitchGroup CaseLabel Stmt)) :
    Relocates k outer id (lowerGroups entries groups) (lowerGroups (entries.map (List.map (.shift k))) groups) := by
  match groups with
  | [] => exact .pure rfl
  | ⟨labels, stmts⟩ :: rest =>
    have behind := lowerGroups_relocates entries.tail rest
    cases entries with
    | nil => exact .bind (.placeAll []) fun _ => .bind (lowerAll_relocates stmts) fun _ => behind
    | cons entry entries => exact .bind (.placeAll entry) fun _ => .bind (lowerAll_relocates stmts) fun _ => behind

end

theorem makes_lowerAll_append {front back : List Stmt} {s s₁ s' : LowerState} {cs cs' : List Call}
    (first : Makes (lowerAll front) s cs () s₁) (second : Makes (lowerAll back) s₁ cs' () s') :
    Makes (lowerAll (front ++ back)) s (cs ++ cs') () s' := by
  induction front generalizing s cs with
  | nil =>
    obtain ⟨-, rfl, rfl⟩ := makes_pure.1 first
    exact second
  | cons stmt rest ih =>
    obtain ⟨cs₁, u, s₂, cs₂, head, tail, rfl⟩ := makes_bind.1 first
    rw [List.append_assoc]
    exact makes_bind.2 ⟨cs₁, u, s₂, cs₂ ++ cs', head, ih tail, rfl⟩

end Stmt

end Typed

end

/-- Bodies in sequence are lowered by the calls of the first without the closing return and those of the second,
relocated. -/
theorem Typed.Program.lower_append {p p₁ p₂ : Program} (joined : p.body = p₁.body ++ p₂.body)
    (lowered₁ : p₁.lower.run.result = .ok ()) (lowered₂ : p₂.lower.run.result = .ok ()) :
    ∃ first second, p₁.lower.run.calls = first ++ [.add .ret] ∧ p₂.lower.run.calls = second ++ [.add .ret] ∧
      p.lower.run.result = .ok () ∧
      p.lower.run.calls = first ++ p₂.lower.run.calls.map (.shift (labelsMade first)) := by
  obtain ⟨first, s₁, body₁, calls₁⟩ := makes_of_ok lowered₁
  obtain ⟨second, s₂, body₂, calls₂⟩ := makes_of_ok lowered₂
  have count : s₁.labels = labelsMade first := by
    have relocates : Relocates 0 [] id (Stmt.lowerAll p₁.body) (Stmt.lowerAll p₁.body) := Stmt.lowerAll_relocates _
    rw [(relocates _ _ _ _ body₁).1]
    exact Nat.zero_add _
  -- The second body is lowered from where the first one ends, which is the start moved behind it.
  have relocates : Relocates s₁.labels s₁.targets id (Stmt.lowerAll p₂.body) (Stmt.lowerAll p₂.body) :=
    Stmt.lowerAll_relocates _
  have behind : Makes (Stmt.lowerAll p₂.body) s₁ (second.map (.shift s₁.labels)) () (s₂.shift s₁.labels s₁.targets) :=
    (relocates _ _ _ _ body₂).2
  have joint : Makes p.lower ⟨0, []⟩ (first ++ p₂.lower.run.calls.map (.shift (labelsMade first))) ()
      (s₂.shift s₁.labels s₁.targets) := by
    rw [calls₂, List.map_append, ← List.append_assoc, ← count, lower, joined]
    exact makes_bind.2 ⟨_, (), _, _, Stmt.makes_lowerAll_append body₁ behind, makes_emit.2 ⟨rfl, rfl⟩, rfl⟩
  exact ⟨first, second, calls₁, calls₂, congrArg Lowered.result joint, congrArg Lowered.calls joint⟩

end Stacklet
