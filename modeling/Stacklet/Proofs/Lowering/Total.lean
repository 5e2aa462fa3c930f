import Stacklet.Proofs.Lowering.Stmt
import Stacklet.Proofs.Typing.WellFormed

/-!
# Lowering does not fail on well-formed trees

Lowering fails at an error node, at an operator on something that is no number, and at a jump to a
construct that is not registered. None of them is in a well-formed tree: the constructs around a
statement are registered before it is lowered, and stay so (`WellFormed.succeeds`).
-/

namespace Stacklet

open Typed (Expr Stmt CaseLabel SwitchPlan)

namespace Lower

/-- A step that succeeds where the constructs are registered that it needs, and keeps all that are. -/
def Succeeds {α : Type} (needed : Target → Prop) (x : Lower α) : Prop :=
  ∀ s : LowerState, (∀ t, needed t → (s.targets.lookup t).isSome) →
    ∃ cs a s', Makes x s cs a s' ∧ ∀ t, (s.targets.lookup t).isSome → (s'.targets.lookup t).isSome

namespace Succeeds

variable {α β : Type} {needed : Target → Prop}

theorem pure {a : α} : Succeeds needed (pure a) :=
  fun s _ => ⟨[], a, s, makes_pure.2 ⟨rfl, rfl, rfl⟩, fun _ => id⟩

theorem emit {call : Call} : Succeeds needed (emit call) :=
  fun s _ => ⟨[call], (), s, makes_emit.2 ⟨rfl, rfl⟩, fun _ => id⟩

theorem label : Succeeds needed label :=
  fun s _ => ⟨[.makeLabel], ⟨s.labels⟩, ⟨s.labels + 1, s.targets⟩, makes_label.2 ⟨rfl, rfl, rfl⟩, fun _ => id⟩

theorem bind {x : Lower α} {f : α → Lower β} (first : Succeeds needed x)
    (second : ∀ a, Succeeds needed (f a)) : Succeeds needed (x >>= f) := by
  intro s registered
  obtain ⟨cs, a, s₁, made, keeps⟩ := first s registered
  obtain ⟨cs', b, s', made', keeps'⟩ := second a s₁ fun t ht => keeps t (registered t ht)
  exact ⟨cs ++ cs', b, s', makes_bind.2 ⟨cs, a, s₁, cs', made, made', rfl⟩, fun t ht => keeps' t (keeps t ht)⟩

/-- What comes after a construct is registered may need it. -/
theorem register {target : Target} {ex : Exits} {x : Lower α}
    (rest : Succeeds (fun t => t = target ∨ needed t) x) :
    Succeeds needed (register target ex >>= fun _ => x) := by
  intro s registered
  have keeps (t : Target) (ht : t = target ∨ (s.targets.lookup t).isSome) :
      (((target, ex) :: s.targets).lookup t).isSome := by
    rw [List.lookup_cons]
    split
    · rfl
    · next ne => exact ht.resolve_left fun same => by rw [same, beq_self_eq_true] at ne; cases ne
  obtain ⟨cs, a, s', made, keeps'⟩ := rest ⟨s.labels, (target, ex) :: s.targets⟩ fun t ht =>
    keeps t (ht.imp_right (registered t))
  exact ⟨cs, a, s', makes_bind.2 ⟨[], (), _, cs, makes_register.2 ⟨rfl, rfl⟩, made, rfl⟩,
    fun t ht => keeps' t (keeps t (.inr ht))⟩

theorem exits {target : Target} (h : needed target) : Succeeds needed (exits target) := by
  intro s registered
  obtain ⟨ex, found⟩ := Option.isSome_iff_exists.1 (registered target h)
  exact ⟨[], ex, s, makes_exits.2 ⟨found, rfl, rfl⟩, fun _ => id⟩

theorem imp {needed' : Target → Prop} {x : Lower α} (h : Succeeds needed x)
    (himp : ∀ t, needed t → needed' t) : Succeeds needed' x :=
  fun s registered => h s fun t ht => registered t (himp t ht)

theorem ofScript {x : Lower Unit} (h : IsScript x) : Succeeds needed x :=
  fun s _ => ⟨x.script, (), s, h s, fun _ => id⟩

theorem placeAll (ls : List Label) : Succeeds needed (placeAll ls) := by
  induction ls with
  | nil => exact pure
  | cons l ls ih => exact emit.bind fun _ => ih

end Succeeds

end Lower

open Lower

variable {known : Place → Prop} {needed : Target → Prop}

/-! ## Expressions -/

namespace Typed.Expr

theorem numericKind_succeeds {line : Line} {ty : Ty} (h : ty.isNumeric) :
    Succeeds needed (numericKind line ty) := by
  unfold numericKind
  obtain ⟨kind, hk⟩ := Option.isSome_iff_exists.1 h
  rw [hk]
  exact .pure

theorem lowerStep_succeeds {op : StepOp} {p : Place} (h : p.ty.isNumeric) (wanted : Bool) :
    Succeeds needed (lowerStep op p wanted) := by
  obtain ⟨kind, hk⟩ := Option.isSome_iff_exists.1 h
  exact .ofScript (isScript_step hk wanted)

theorem lowerAssign_succeeds (p : Place) {value : Lower Unit} (h : Succeeds needed value) (wanted : Bool) :
    Succeeds needed (lowerAssign p value wanted) := by
  refine .bind (.ofScript p.isScript_address) fun _ => .bind h fun _ => ?_
  have store : Succeeds needed p.store := .ofScript p.isScript_store
  cases wanted with
  | false => exact store
  | true => exact .bind (.ofScript p.isScript_keepCopy) fun _ => store

end Typed.Expr

namespace Forms

/-- Forms that both succeed. -/
structure Succeed (needed : Target → Prop) (forms : Forms) : Prop where
  value : Succeeds needed forms.value
  branch : ∀ target onTrue, Succeeds needed (forms.branch target onTrue)

theorem Succeed.ofValue {value : Lower Unit} (h : Succeeds needed value) :
    (Forms.ofValue value).Succeed needed where
  value := h
  branch _ _ := h.bind fun _ => .emit

theorem Succeed.ofBranch {branch : Branch} (h : ∀ target onTrue, Succeeds needed (branch target onTrue)) :
    (Forms.ofBranch branch).Succeed needed where
  value := .bind .label fun _ => .bind .label fun _ => .bind (h _ _) fun _ => .bind .emit fun _ =>
    .bind .emit fun _ => .bind .emit fun _ => .bind .emit fun _ => .emit
  branch := h

theorem Succeed.ofBool (b : Bool) : (Forms.ofBool b).Succeed needed where
  value := .emit
  branch target onTrue := by
    change Succeeds needed (if b = onTrue then goto target else pure ())
    split
    · exact .emit
    · exact .pure

end Forms

/-- Both forms of a well-typed expression can be lowered. -/
theorem Typed.Expr.WellTyped.forms_succeed {e : Expr} (wt : e.WellTyped known) : e.forms.Succeed needed := by
  induction e with
  | literal line ty v =>
    cases v with
    | bool b => exact .ofBool b
    | int | long | double => exact .ofValue .emit
  | load line ty p => exact .ofValue (.ofScript p.isScript_read)
  | negate line ty e ih =>
    obtain ⟨operand, -, numeric⟩ := wt
    exact .ofValue (.bind (Expr.numericKind_succeeds numeric) fun _ => .bind (ih operand).value fun _ => .emit)
  | not line ty e ih => exact .ofBranch fun target onTrue => (ih wt.1).branch target !onTrue
  | step line ty op p =>
    obtain ⟨-, rfl, numeric⟩ := wt
    exact .ofValue (Expr.lowerStep_succeeds numeric true)
  | binary line ty op l r ihl ihr =>
    obtain ⟨left, right, result⟩ := wt
    have lhs := ihl left
    have rhs := ihr right
    have result := (resultType_cases result).2
    cases op with
    | arith op =>
      have numeric : ty.isNumeric := by rw [result.1]; exact result.2
      exact .ofValue (.bind (Expr.numericKind_succeeds numeric) fun _ => .bind lhs.value fun _ =>
        .bind rhs.value fun _ => .emit)
    | compare cond =>
      refine .ofBranch fun target onTrue => .bind lhs.value fun _ => .bind rhs.value fun _ => ?_
      cases l.ty.storage with
      | int => exact .emit
      | long | double => exact .bind .emit fun _ => .emit
    | logic op =>
      -- One of the two jumps of each operator goes over the right operand and makes a label for it.
      cases op <;> refine .ofBranch fun target onTrue => ?_ <;> cases onTrue
      case and.true | or.false =>
        exact .bind .label fun _ => .bind (lhs.branch _ _) fun _ => .bind (rhs.branch _ _) fun _ => .emit
      case and.false | or.true => exact .bind (lhs.branch _ _) fun _ => rhs.branch _ _
  | assign line ty p e ih => exact .ofValue (Expr.lowerAssign_succeeds p (ih wt.2.1).value true)
  | error => exact wt.elim

theorem Typed.Expr.WellTyped.effect_succeeds {e : Expr} (wt : e.WellTyped known) :
    Succeeds needed e.lowerEffect := by
  have value : Succeeds needed e.lowerValue := wt.forms_succeed.value
  cases e with
  | step line ty op p =>
    obtain ⟨-, rfl, numeric⟩ := wt
    exact Expr.lowerStep_succeeds numeric false
  | assign line ty p e => exact Expr.lowerAssign_succeeds p wt.2.1.forms_succeed.value false
  | error => exact wt.elim
  | literal | load | negate | not | binary => exact value.bind fun _ => .emit

/-! ## Statements -/

/-- Whether a number is that of a construct around a statement. -/
def Surroundings.Has (env : Surroundings) (target : Target) : Prop := ∃ e ∈ env.jumps, e.target = target

theorem Surroundings.has_enter {env : Surroundings} {construct : Construct} {target t : Target} :
    (env.enter construct target).Has t → t = target ∨ env.Has t := by
  rintro ⟨e, mem, rfl⟩
  rcases List.mem_cons.1 mem with rfl | mem
  · exact .inl rfl
  · exact .inr ⟨e, mem, rfl⟩

namespace Typed

theorem planGroup_succeeds (d : Option Label) (labels : List CaseLabel) :
    Succeeds needed (planGroup d labels) := by
  induction labels generalizing d with
  | nil => exact .pure
  | cons label rest ih =>
    cases label with
    | case v => exact .bind .label fun _ => .bind (ih d) fun _ => .pure
    | otherwise =>
      cases d with
      | none => exact .bind .label fun l => .bind (ih (some l)) fun _ => .pure
      | some l => exact .bind .pure fun l => .bind (ih (some l)) fun _ => .pure

theorem planGroups_succeeds (d : Option Label) (groups : List (SwitchGroup CaseLabel Stmt)) :
    Succeeds needed (planGroups d groups) := by
  induction groups generalizing d with
  | nil => exact .pure
  | cons group rest ih =>
    exact .bind (planGroup_succeeds d group.labels) fun _ => .bind (ih _) fun _ => .pure

namespace Stmt

mutual

/-- A well-formed statement can be lowered. -/
theorem WellFormed.succeeds {env : Surroundings} (s : Stmt) (wf : s.WellFormed known env) :
    Succeeds env.Has s.lower := by
  match s with
  | .block line body => exact AllWellFormed.succeeds body wf
  | .declare line var none => exact .pure
  | .declare line var (some init) => exact .bind wf.2.1.forms_succeed.value fun _ => .emit
  | .expr line e => exact Expr.WellTyped.effect_succeeds wf
  | .ifElse line c t none =>
    obtain ⟨cond, part⟩ := wf
    exact .bind .label fun _ => .bind (cond.1.forms_succeed.branch _ _) fun _ =>
      .bind (WellFormed.succeeds t part) fun _ => .emit
  | .ifElse line c t (some e) =>
    obtain ⟨cond, part, part'⟩ := wf
    exact .bind .label fun _ => .bind (cond.1.forms_succeed.branch _ _) fun _ =>
      .bind (WellFormed.succeeds t part) fun _ => .bind .label fun _ => .bind .emit fun _ =>
        .bind .emit fun _ => .bind (WellFormed.succeeds e part') fun _ => .emit
  | .whileDo line target c body =>
    obtain ⟨cond, -, part⟩ := wf
    exact .bind .label fun _ => .bind .label fun _ => .register <| .bind .emit fun _ =>
      .bind (cond.1.forms_succeed.branch _ _) fun _ =>
        .bind ((WellFormed.succeeds body part).imp fun _ => Surroundings.has_enter) fun _ =>
          .bind .emit fun _ => .emit
  | .doWhile line target body c =>
    obtain ⟨cond, -, part⟩ := wf
    exact .bind .label fun _ => .bind .label fun _ => .bind .label fun _ => .register <|
      .bind .emit fun _ => .bind ((WellFormed.succeeds body part).imp fun _ => Surroundings.has_enter) fun _ =>
        .bind .emit fun _ => .bind (cond.1.forms_succeed.branch _ _) fun _ => .emit
  | .forLoop line target init c update body =>
    obtain ⟨first, cond, -, again, part⟩ := wf
    refine .bind (AllWellFormed.succeeds init first) fun _ => .bind .label fun _ => .bind .label fun _ =>
      .bind .label fun _ => .bind .label fun _ => .register <| .bind .emit fun _ => .bind .emit fun _ =>
        .bind ((OptionWellFormed.succeeds body part).imp fun _ => Surroundings.has_enter) fun _ =>
          .bind .emit fun _ =>
            .bind ((AllWellFormed.succeeds update again).imp fun _ => Surroundings.has_enter) fun _ =>
              .bind .emit fun _ => ?_
    cases c with
    | none => exact .bind .emit fun _ => .emit
    | some c => exact .bind ((cond c rfl).1.forms_succeed.branch _ _) fun _ => .emit
  | .switch line target d groups =>
    obtain ⟨value, -, -, -, parts⟩ := wf
    exact .bind value.forms_succeed.value fun _ => .bind .label fun _ => .register <|
      .bind (planGroups_succeeds none groups) fun plan => .bind .emit fun _ =>
        .bind ((GroupsWellFormed.succeeds plan.entries groups parts).imp fun _ => Surroundings.has_enter)
          fun _ => .emit
  | .breakOut line target =>
    obtain ⟨e, mem, rfl⟩ := wf
    exact .bind (.exits ⟨e, mem, rfl⟩) fun _ => .emit
  | .continueLoop line target =>
    obtain ⟨e, mem, -, rfl⟩ := wf
    refine .bind (.exits ⟨e, mem, rfl⟩) fun ex => ?_
    split
    · exact .emit
    · exact .pure
  | .ret line none => exact .emit
  | .ret line (some value) => exact .bind wf.1.forms_succeed.value fun _ => .emit
  | .empty line => exact .pure

theorem AllWellFormed.succeeds {env : Surroundings} (ss : List Stmt) (wf : AllWellFormed known env ss) :
    Succeeds env.Has (lowerAll ss) := by
  match ss with
  | [] => exact .pure
  | s :: rest => exact .bind (WellFormed.succeeds s wf.1) fun _ => AllWellFormed.succeeds rest wf.2

theorem OptionWellFormed.succeeds {env : Surroundings} (s : Option Stmt)
    (wf : OptionWellFormed known env s) : Succeeds env.Has (lowerOption s) := by
  match s with
  | none => exact .pure
  | some s => exact WellFormed.succeeds s wf

theorem GroupsWellFormed.succeeds {env : Surroundings} (entries : List (List Label))
    (groups : List (SwitchGroup CaseLabel Stmt)) (wf : GroupsWellFormed known env groups) :
    Succeeds env.Has (lowerGroups entries groups) := by
  match groups with
  | [] => exact .pure
  | ⟨labels, stmts⟩ :: rest =>
    exact .bind (.placeAll _) fun _ => .bind (AllWellFormed.succeeds stmts wf.1) fun _ =>
      GroupsWellFormed.succeeds entries.tail rest wf.2

end

end Stmt

/-- A program with a well-formed body can be lowered. -/
theorem Program.lower_lowers {p : Program} (wf : Stmt.AllWellFormed known ⟨p.returns, []⟩ p.body) :
    ∃ cs s, Lowers (.all p.body) ⟨0, []⟩ cs s ∧ p.lower.run = ⟨cs ++ [.add .ret], s, .ok ()⟩ := by
  obtain ⟨cs, u, s, made, -⟩ := Stmt.AllWellFormed.succeeds p.body wf ⟨0, []⟩ nofun
  refine ⟨cs, s, Stmt.lowerAll_lowers p.body made, ?_⟩
  exact makes_bind.2 ⟨cs, u, s, [.add .ret], made, makes_emit.2 ⟨rfl, rfl⟩, rfl⟩

end Typed

end Stacklet
