import Stacklet.Proofs.Lowering.Stmt
import Stacklet.Proofs.Typing.WellFormed

/-!
# Label discipline

Lowering mentions a label only after it was made, and binds each label that it makes exactly once
(`Emits.disciplined`, `Lowers.disciplined`). The labels of a `switch` are bound in front of its groups;
the default label is bound once because a switch has at most one default.
-/

namespace Stacklet

namespace Call

/-- The labels that a call mentions. -/
def mentions : Call → List Label
  | .bind l | .jump _ l => [l]
  | .switch _ labels other => other :: labels
  | .makeLabel | .add _ | .inc .. => []

/-- Whether a call binds the label of a number. -/
def isBindOf (id : Nat) : Call → Bool
  | .bind l => l.id == id
  | _ => false

/-- Whether a call has nothing to do with labels. -/
def isPlain : Call → Bool
  | .add _ | .inc .. => true
  | _ => false

end Call

/-- Calls that mention only labels made before, with the number of labels before and after them. -/
def Scoped : Nat → List Call → Nat → Prop
  | n, [], n' => n' = n
  | n, call :: rest, n' => (∀ l ∈ call.mentions, l.id < n) ∧ Scoped (n + call.labelsMade) rest n'

theorem scoped_append {n n' : Nat} {cs cs' : List Call} :
    Scoped n (cs ++ cs') n' ↔ ∃ n₁, Scoped n cs n₁ ∧ Scoped n₁ cs' n' := by
  induction cs generalizing n with
  | nil =>
    constructor
    · intro h
      exact ⟨n, rfl, h⟩
    · rintro ⟨_, rfl, h⟩
      exact h
  | cons call cs ih =>
    rw [List.cons_append, Scoped, ih]
    constructor
    · rintro ⟨hm, n₁, h, h'⟩
      exact ⟨n₁, ⟨hm, h⟩, h'⟩
    · rintro ⟨n₁, ⟨hm, h⟩, h'⟩
      exact ⟨hm, n₁, h, h'⟩

theorem Scoped.le {n n' : Nat} {cs : List Call} (h : Scoped n cs n') : n ≤ n' := by
  induction cs generalizing n with
  | nil => exact Nat.le_of_eq h.symm
  | cons call cs ih => exact Nat.le_trans (Nat.le_add_right _ _) (ih h.2)

/-- How often calls bind the label of a number. -/
def binds (id : Nat) (cs : List Call) : Nat := cs.countP (·.isBindOf id)

section

variable (id : Nat) (cs cs' : List Call)

@[simp] theorem binds_nil : binds id [] = 0 := rfl

@[simp] theorem binds_append : binds id (cs ++ cs') = binds id cs + binds id cs' := List.countP_append

@[simp] theorem binds_bind (l : Label) :
    binds id (.bind l :: cs) = binds id cs + if l.id = id then 1 else 0 := by
  rw [binds, List.countP_cons]
  simp [Call.isBindOf, binds]

@[simp] theorem binds_makeLabel : binds id (.makeLabel :: cs) = binds id cs :=
  List.countP_cons_of_neg nofun

@[simp] theorem binds_add (i : Instr) : binds id (.add i :: cs) = binds id cs :=
  List.countP_cons_of_neg nofun

@[simp] theorem binds_jump (j : Jump) (l : Label) : binds id (.jump j l :: cs) = binds id cs :=
  List.countP_cons_of_neg nofun

@[simp] theorem binds_switch (keys : List Int32) (labels : List Label) (other : Label) :
    binds id (.switch keys labels other :: cs) = binds id cs :=
  List.countP_cons_of_neg nofun

end

/-- Calls that mention only labels made before and bind each label that they make exactly once. -/
structure Disciplined (n : Nat) (cs : List Call) (n' : Nat) : Prop where
  order : Scoped n cs n'
  once : ∀ id, binds id cs = if n ≤ id ∧ id < n' then 1 else 0

namespace Disciplined

variable {n n₁ n' : Nat} {cs cs' : List Call}

theorem append (h : Disciplined n cs n₁) (h' : Disciplined n₁ cs' n') : Disciplined n (cs ++ cs') n' where
  order := scoped_append.2 ⟨n₁, h.order, h'.order⟩
  once id := by
    have le := h.order.le
    have le' := h'.order.le
    rw [binds_append, h.once, h'.once]
    grind

theorem plain (h : cs.all Call.isPlain) : Disciplined n cs n := by
  induction cs with
  | nil => exact ⟨rfl, fun id => by rw [binds_nil, if_neg (by omega)]⟩
  | cons call cs ih =>
    rw [List.all_cons, Bool.and_eq_true] at h
    obtain ⟨order, once⟩ := ih h.2
    cases call with
    | add i | inc slot delta => exact ⟨⟨nofun, order⟩, fun id => once id⟩
    | _ => cases h.1

theorem jump {j : Jump} {l : Label} (h : l.id < n) : Disciplined n [.jump j l] n where
  order := ⟨fun l' mem => by rw [List.mem_singleton.1 mem]; exact h, rfl⟩
  once id := by rw [binds_jump, binds_nil, if_neg (by omega)]

/-! Calls that are put together as the constructs are. Each label that is made is bound once at its place. -/

section

variable {n₂ : Nat} {cs₁ cs₂ cs₃ : List Call}

/-- A label that leads behind what comes after a condition. -/
theorem around (h : Disciplined (n + 1) cs n₁) (h' : Disciplined n₁ cs' n') :
    Disciplined n (.makeLabel :: (cs ++ (cs' ++ [.bind ⟨n⟩]))) n' where
  order := by
    have le := h.order.le
    have le' := h'.order.le
    exact ⟨nofun, scoped_append.2 ⟨n₁, h.order, scoped_append.2 ⟨n', h'.order,
      List.forall_mem_singleton.2 (show n < n' by omega), rfl⟩⟩⟩
  once id := by
    have le := h.order.le
    have le' := h'.order.le
    simp only [binds_makeLabel, binds_append, binds_bind, binds_nil, h.once, h'.once]
    grind

/-- Two values, to one of which jumps lead. -/
theorem settle (h : Disciplined (n + 2) cs n') (yes no : Instr) :
    Disciplined n (.makeLabel :: .makeLabel :: (cs ++ [.add yes, .jump .goto ⟨n + 1⟩, .bind ⟨n⟩, .add no,
      .bind ⟨n + 1⟩])) n' where
  order := by
    have le := h.order.le
    exact ⟨nofun, nofun, scoped_append.2 ⟨n', h.order, nofun,
      List.forall_mem_singleton.2 (show n + 1 < n' by omega), List.forall_mem_singleton.2 (show n < n' by omega),
      nofun, List.forall_mem_singleton.2 (show n + 1 < n' by omega), rfl⟩⟩
  once id := by
    have le := h.order.le
    simp only [binds_makeLabel, binds_append, binds_bind, binds_add, binds_jump, binds_nil, h.once]
    grind

theorem ifElse (condition : Disciplined (n + 1) cs n₁) (yes : Disciplined n₁ cs₁ n₂)
    (no : Disciplined (n₂ + 1) cs₂ n') :
    Disciplined n (.makeLabel :: (cs ++ (cs₁ ++ (.makeLabel :: .jump .goto ⟨n₂⟩ :: .bind ⟨n⟩ ::
      (cs₂ ++ [.bind ⟨n₂⟩]))))) n' where
  order := by
    have leC := condition.order.le
    have leT := yes.order.le
    have leE := no.order.le
    exact ⟨nofun, scoped_append.2 ⟨n₁, condition.order, scoped_append.2 ⟨n₂, yes.order, nofun,
      List.forall_mem_singleton.2 (show n₂ < n₂ + 1 by omega),
      List.forall_mem_singleton.2 (show n < n₂ + 1 by omega),
      scoped_append.2 ⟨n', no.order, List.forall_mem_singleton.2 (show n₂ < n' by omega), rfl⟩⟩⟩⟩
  once id := by
    have leC := condition.order.le
    have leT := yes.order.le
    have leE := no.order.le
    simp only [binds_makeLabel, binds_append, binds_bind, binds_jump, binds_nil, condition.once, yes.once, no.once]
    grind

theorem whileDo (condition : Disciplined (n + 2) cs n₁) (body : Disciplined n₁ cs₁ n') :
    Disciplined n (.makeLabel :: .makeLabel :: .bind ⟨n⟩ ::
      (cs ++ (cs₁ ++ [.jump .goto ⟨n⟩, .bind ⟨n + 1⟩]))) n' where
  order := by
    have leC := condition.order.le
    have leB := body.order.le
    exact ⟨nofun, nofun, List.forall_mem_singleton.2 (show n < n + 2 by omega),
      scoped_append.2 ⟨n₁, condition.order, scoped_append.2 ⟨n', body.order,
        List.forall_mem_singleton.2 (show n < n' by omega),
        List.forall_mem_singleton.2 (show n + 1 < n' by omega), rfl⟩⟩⟩
  once id := by
    have leC := condition.order.le
    have leB := body.order.le
    simp only [binds_makeLabel, binds_append, binds_bind, binds_jump, binds_nil, condition.once, body.once]
    grind

theorem doWhile (body : Disciplined (n + 3) cs n₁) (condition : Disciplined n₁ cs₁ n') :
    Disciplined n (.makeLabel :: .makeLabel :: .makeLabel :: .bind ⟨n⟩ ::
      (cs ++ (.bind ⟨n + 1⟩ :: (cs₁ ++ [.bind ⟨n + 2⟩])))) n' where
  order := by
    have leB := body.order.le
    have leC := condition.order.le
    exact ⟨nofun, nofun, nofun, List.forall_mem_singleton.2 (show n < n + 3 by omega),
      scoped_append.2 ⟨n₁, body.order, List.forall_mem_singleton.2 (show n + 1 < n₁ by omega),
        scoped_append.2 ⟨n', condition.order, List.forall_mem_singleton.2 (show n + 2 < n' by omega), rfl⟩⟩⟩
  once id := by
    have leB := body.order.le
    have leC := condition.order.le
    simp only [binds_makeLabel, binds_append, binds_bind, binds_nil, condition.once, body.once]
    grind

/-- The part of a `for` behind its start. -/
theorem forLoop (body : Disciplined (n + 4) cs₁ n₁) (update : Disciplined n₁ cs₂ n₂)
    (condition : Disciplined n₂ cs₃ n') :
    Disciplined n (.makeLabel :: .makeLabel :: .makeLabel :: .makeLabel :: .jump .goto ⟨n + 2⟩ :: .bind ⟨n⟩ ::
      (cs₁ ++ (.bind ⟨n + 1⟩ :: (cs₂ ++ (.bind ⟨n + 2⟩ :: (cs₃ ++ [.bind ⟨n + 3⟩])))))) n' where
  order := by
    have leB := body.order.le
    have leU := update.order.le
    have leC := condition.order.le
    exact ⟨nofun, nofun, nofun, nofun, List.forall_mem_singleton.2 (show n + 2 < n + 4 by omega),
      List.forall_mem_singleton.2 (show n < n + 4 by omega),
      scoped_append.2 ⟨n₁, body.order, List.forall_mem_singleton.2 (show n + 1 < n₁ by omega),
        scoped_append.2 ⟨n₂, update.order, List.forall_mem_singleton.2 (show n + 2 < n₂ by omega),
          scoped_append.2 ⟨n', condition.order, List.forall_mem_singleton.2 (show n + 3 < n' by omega), rfl⟩⟩⟩⟩
  once id := by
    have leB := body.order.le
    have leU := update.order.le
    have leC := condition.order.le
    simp only [binds_makeLabel, binds_append, binds_bind, binds_jump, binds_nil, body.once, update.once,
      condition.once]
    grind

end

end Disciplined

theorem Scoped.mentions_lt {n n' : Nat} {cs : List Call} (h : Scoped n cs n') {call : Call}
    (mem : call ∈ cs) {l : Label} (hl : l ∈ call.mentions) : l.id < n' := by
  induction cs generalizing n with
  | nil => cases mem
  | cons c cs ih =>
    rcases List.mem_cons.1 mem with rfl | mem
    · exact Nat.lt_of_lt_of_le (h.1 l hl) (Nat.le_trans (Nat.le_add_right _ _) (Scoped.le h.2))
    · exact ih h.2 mem

/-- What disciplined calls mention from the start on is bound by them. -/
theorem Disciplined.bind_mem {n : Nat} {cs : List Call} (h : Disciplined 0 cs n) {call : Call}
    (mem : call ∈ cs) {l : Label} (hl : l ∈ call.mentions) : .bind l ∈ cs := by
  have once := h.once l.id
  rw [if_pos ⟨Nat.zero_le _, h.order.mentions_lt mem hl⟩] at once
  obtain ⟨c, hc, is⟩ := List.countP_pos_iff.1 (show 0 < binds l.id cs by omega)
  cases c with
  | bind l' =>
    obtain rfl : l' = l := by
      cases l
      cases l'
      exact congrArg Label.mk (beq_iff_eq.1 is)
    exact hc
  | _ => cases is

/-! ## Expressions -/

/-- A form that mentions only labels made before. -/
def Form.Within (n : Nat) : Form → Prop
  | .branch target _ => target.id < n
  | _ => True

theorem disciplined_compareCalls {cond : Cond} {kind : Kind} {target : Label} {onTrue : Bool} {n : Nat}
    (h : target.id < n) : Disciplined n (compareCalls cond kind target onTrue) n := by
  cases kind with
  | int => exact .jump h
  | long | double =>
    have compared {i : Instr} : Disciplined n [.add i] n := .plain rfl
    exact compared.append (.jump h)

namespace Place

variable (p : Place)

theorem plain_address : p.address.script.all Call.isPlain := by cases p <;> rfl

theorem plain_keepCopy : p.keepCopy.script.all Call.isPlain := by cases p <;> rfl

theorem plain_store : p.store.script.all Call.isPlain := by cases p <;> rfl

theorem plain_read : p.read.script.all Call.isPlain := by cases p <;> rfl

end Place

theorem Typed.Expr.plain_step {op : StepOp} {p : Place} {kind : Kind} (hk : p.ty.kind? = some kind)
    (wanted : Bool) : (lowerStep op p wanted).script.all Call.isPlain := by
  unfold Lower.script lowerStep
  rw [hk]
  cases p <;> cases wanted <;> cases op <;> rfl

/-- The code of an expression is disciplined. -/
theorem Emits.disciplined {e : Typed.Expr} {form : Form} {n n' : Nat} {cs : List Call}
    (h : Emits e form n cs n') (within : form.Within n) : Disciplined n cs n' := by
  induction h with
  | literal => exact .plain rfl
  | taken => exact .jump within
  | untaken => exact .plain rfl
  | load => exact .plain (Place.plain_read _)
  | negate _ _ ih => exact (ih trivial).append (.plain rfl)
  | not _ ih => exact ih within
  | step hk => exact .plain (Typed.Expr.plain_step hk true)
  | stepEffect hk => exact .plain (Typed.Expr.plain_step hk false)
  | arith _ _ _ ihl ihr => exact (ihl trivial).append ((ihr trivial).append (.plain rfl))
  | compare _ _ ihl ihr =>
    have left := ihl trivial
    have right := ihr trivial
    exact left.append (right.append (disciplined_compareCalls
      (Nat.lt_of_lt_of_le within (Nat.le_trans left.order.le right.order.le))))
  | shortcut _ _ ihl ihr =>
    have left := ihl within
    exact left.append (ihr (Nat.lt_of_lt_of_le within left.order.le))
  | @skip _ _ _ _ _ _ n _ n₁ _ n' _ _ ihl ihr =>
    have left := ihl (Nat.lt_succ_self n)
    exact left.around (ihr (Nat.lt_of_lt_of_le within (Nat.le_of_succ_le left.order.le)))
  | assign _ ih =>
    exact (Disciplined.plain (Place.plain_address _)).append ((ih trivial).append
      ((Disciplined.plain (Place.plain_keepCopy _)).append (.plain (Place.plain_store _))))
  | assignEffect _ ih =>
    exact (Disciplined.plain (Place.plain_address _)).append ((ih trivial).append
      (.plain (Place.plain_store _)))
  | test _ _ _ ih =>
    have value := ih trivial
    exact value.append (.jump (Nat.lt_of_lt_of_le within value.order.le))
  | @settle _ n _ n' _ _ ih => exact (ih (show n < n + 2 by omega)).settle (.iconst 1) (.iconst 0)
  | drop _ _ ih => exact (ih trivial).append (.plain rfl)

/-! ## Switches -/

namespace Typed

variable {d d' : Option Label} {labels : List CaseLabel} {n n' : Nat} {arms : List (Int32 × Label)}
  {entry : List Label} {groups : List (SwitchGroup CaseLabel Stmt)} {plan : SwitchPlan}

theorem Plans.le (h : Plans d labels n arms entry d' n') : n ≤ n' := by
  induction h with
  | nil => exact Nat.le_refl _
  | case _ ih | newDefault _ ih => exact Nat.le_of_succ_le ih
  | oldDefault _ ih => exact ih

theorem PlansAll.le (h : PlansAll d groups n plan n') : n ≤ n' := by
  induction h with
  | nil => exact Nat.le_refl _
  | cons plans _ ih => exact Nat.le_trans plans.le ih

/-- The labels made for a group stand in front of it once each, if it holds the only default. -/
theorem Plans.count (h : Plans d labels n arms entry d' n')
    (single : labels.count .otherwise + d.isSome.toNat ≤ 1) :
    d'.isSome.toNat = labels.count .otherwise + d.isSome.toNat ∧
    ∀ id, entry.count ⟨id⟩ = if n ≤ id ∧ id < n' then 1 else 0 := by
  induction h with
  | nil => exact ⟨(Nat.zero_add _).symm, fun id => by rw [if_neg (by omega)]; rfl⟩
  | @case d v rest n arms entry d' n' plans ih =>
    rw [List.count_cons_of_ne (by simp)] at single ⊢
    obtain ⟨found, once⟩ := ih single
    have le := plans.le
    refine ⟨found, fun id => ?_⟩
    rw [List.count_cons, once]
    grind
  | @newDefault rest n arms entry d' n' plans ih =>
    rw [List.count_cons_self] at single ⊢
    simp only [Option.isSome_none, Option.isSome_some, Bool.toNat_false, Bool.toNat_true] at single ih ⊢
    obtain ⟨found, once⟩ := ih (by omega)
    have le := plans.le
    refine ⟨by omega, fun id => ?_⟩
    rw [List.count_cons, once]
    grind
  | oldDefault =>
    rw [List.count_cons_self, Option.isSome_some, Bool.toNat_true] at single
    omega

theorem PlansAll.count (h : PlansAll d groups n plan n') (single : defaults groups + d.isSome.toNat ≤ 1) :
    ∀ id, plan.entries.flatten.count ⟨id⟩ = if n ≤ id ∧ id < n' then 1 else 0 := by
  induction h with
  | nil => intro id; rw [if_neg (by omega)]; rfl
  | @cons d group rest n arms entry d' n₁ plan n' plans plansAll ih =>
    rw [defaults, List.flatMap_cons, List.count_append] at single
    rw [defaults] at ih
    obtain ⟨found, once⟩ := plans.count (by omega)
    have le := plans.le
    have le' := plansAll.le
    intro id
    rw [List.flatten_cons, List.count_append, once, ih (by omega)]
    grind

/-- The labels of the arms and of the default stand in front of groups. -/
theorem Plans.labels_mem (h : Plans d labels n arms entry d' n') :
    (∀ arm ∈ arms, arm.2 ∈ entry) ∧ ∀ l ∈ d', d = some l ∨ l ∈ entry := by
  induction h with
  | nil => exact ⟨nofun, fun l h => .inl h⟩
  | case _ ih =>
    refine ⟨fun arm mem => ?_, fun l hl => (ih.2 l hl).imp_right (List.mem_cons_of_mem _)⟩
    rcases List.mem_cons.1 mem with rfl | mem
    · exact List.mem_cons_self
    · exact List.mem_cons_of_mem _ (ih.1 arm mem)
  | newDefault _ ih =>
    refine ⟨fun arm mem => List.mem_cons_of_mem _ (ih.1 arm mem), fun l hl => .inr ?_⟩
    rcases ih.2 l hl with same | mem
    · cases same
      exact List.mem_cons_self
    · exact List.mem_cons_of_mem _ mem
  | oldDefault _ ih =>
    exact ⟨fun arm mem => List.mem_cons_of_mem _ (ih.1 arm mem),
      fun l hl => (ih.2 l hl).imp_right (List.mem_cons_of_mem _)⟩

theorem PlansAll.labels_mem (h : PlansAll d groups n plan n') :
    (∀ arm ∈ plan.arms, arm.2 ∈ plan.entries.flatten) ∧
    ∀ l ∈ plan.default?, d = some l ∨ l ∈ plan.entries.flatten := by
  induction h with
  | nil => exact ⟨nofun, fun l h => .inl h⟩
  | cons plans _ ih =>
    rw [List.flatten_cons]
    constructor
    · intro arm mem
      rcases List.mem_append.1 mem with mem | mem
      · exact List.mem_append_left _ (plans.labels_mem.1 arm mem)
      · exact List.mem_append_right _ (ih.1 arm mem)
    · intro l hl
      rcases ih.2 l hl with same | mem
      · exact (plans.labels_mem.2 l same).imp_right (List.mem_append_left _)
      · exact .inr (List.mem_append_right _ mem)

/-- The labels in front of groups are made for them. -/
theorem PlansAll.made (h : PlansAll d groups n plan n') (single : defaults groups + d.isSome.toNat ≤ 1) :
    ∀ l ∈ plan.entries.flatten, l.id < n' := by
  intro l mem
  have some := List.count_pos_iff.2 mem
  rw [h.count single l.id] at some
  grind

/-- A switch mentions the labels in front of its groups, or one that was made before them. -/
theorem PlansAll.mentioned {other : Label} (h : PlansAll none groups n plan n') (single : defaults groups ≤ 1)
    (before : other.id < n) : ∀ l ∈ plan.default?.getD other :: plan.arms.map (·.2), l.id < n' := by
  have made := h.made single
  intro l mem
  rcases List.mem_cons.1 mem with rfl | mem
  · cases hd : plan.default? with
    | none => exact Nat.lt_of_lt_of_le before h.le
    | some l => exact made l ((h.labels_mem.2 l hd).resolve_left nofun)
  · obtain ⟨arm, ha, rfl⟩ := List.mem_map.1 mem
    exact made _ (h.labels_mem.1 arm ha)

theorem PlansAll.length (h : PlansAll d groups n plan n') : plan.entries.length = groups.length := by
  induction h with
  | nil => rfl
  | cons _ _ ih => rw [List.length_cons, List.length_cons, ih]

namespace Stmt

mutual

/-- Whether every switch in a statement has at most one default. -/
def SingleDefaults : Stmt → Prop
  | .block _ body => AllSingleDefaults body
  | .ifElse _ _ t none => t.SingleDefaults
  | .ifElse _ _ t (some e) => t.SingleDefaults ∧ e.SingleDefaults
  | .whileDo _ _ _ body | .doWhile _ _ body _ => body.SingleDefaults
  | .forLoop _ _ init _ update body =>
    AllSingleDefaults init ∧ AllSingleDefaults update ∧ OptionSingleDefaults body
  | .switch _ _ _ groups => defaults groups ≤ 1 ∧ GroupsSingleDefaults groups
  | .declare .. | .expr .. | .breakOut .. | .continueLoop .. | .ret .. | .empty _ => True

/-- Whether every switch in some statements has at most one default. -/
def AllSingleDefaults : List Stmt → Prop
  | [] => True
  | s :: rest => s.SingleDefaults ∧ AllSingleDefaults rest

/-- Whether every switch in a statement that may be absent has at most one default. -/
def OptionSingleDefaults : Option Stmt → Prop
  | none => True
  | some s => s.SingleDefaults

/-- Whether every switch in the groups of a switch has at most one default. -/
def GroupsSingleDefaults : List (SwitchGroup CaseLabel Stmt) → Prop
  | [] => True
  | ⟨_, stmts⟩ :: rest => AllSingleDefaults stmts ∧ GroupsSingleDefaults rest

end

section

variable {known : Place → Prop}

mutual

/-- A well-formed statement has no switch with two defaults. -/
theorem WellFormed.singleDefaults {env : Surroundings} (s : Stmt) (wf : s.WellFormed known env) :
    s.SingleDefaults := by
  match s with
  | .block line body => exact AllWellFormed.singleDefaults body wf
  | .ifElse line c t none => exact WellFormed.singleDefaults t wf.2
  | .ifElse line c t (some e) =>
    exact ⟨WellFormed.singleDefaults t wf.2.1, WellFormed.singleDefaults e wf.2.2⟩
  | .whileDo line target c body | .doWhile line target body c =>
    exact WellFormed.singleDefaults body wf.2.2
  | .forLoop line target init c update body =>
    obtain ⟨hi, -, -, hu, hb⟩ := wf
    exact ⟨AllWellFormed.singleDefaults init hi, AllWellFormed.singleDefaults update hu,
      OptionWellFormed.singleDefaults body hb⟩
  | .switch line target d groups =>
    obtain ⟨-, -, -, single, hg⟩ := wf
    exact ⟨single, GroupsWellFormed.singleDefaults groups hg⟩
  | .declare .. | .expr .. | .breakOut .. | .continueLoop .. | .ret .. | .empty _ => trivial

theorem AllWellFormed.singleDefaults {env : Surroundings} (ss : List Stmt)
    (wf : AllWellFormed known env ss) : AllSingleDefaults ss := by
  match ss with
  | [] => trivial
  | s :: rest => exact ⟨WellFormed.singleDefaults s wf.1, AllWellFormed.singleDefaults rest wf.2⟩

theorem OptionWellFormed.singleDefaults {env : Surroundings} (s : Option Stmt)
    (wf : OptionWellFormed known env s) : OptionSingleDefaults s := by
  match s with
  | none => trivial
  | some s => exact WellFormed.singleDefaults s wf

theorem GroupsWellFormed.singleDefaults {env : Surroundings}
    (groups : List (SwitchGroup CaseLabel Stmt)) (wf : GroupsWellFormed known env groups) :
    GroupsSingleDefaults groups := by
  match groups with
  | [] => trivial
  | ⟨labels, stmts⟩ :: rest =>
    exact ⟨AllWellFormed.singleDefaults stmts wf.1, GroupsWellFormed.singleDefaults rest wf.2⟩

end

end

end Stmt

/-! ## Statements -/

namespace Piece

/-- Whether every switch in a piece has at most one default. -/
def SingleDefaults : Piece → Prop
  | .stmt s => s.SingleDefaults
  | .all ss => Stmt.AllSingleDefaults ss
  | .option s => Stmt.OptionSingleDefaults s
  | .groups entries groups => entries.length = groups.length ∧ Stmt.GroupsSingleDefaults groups

/-- The labels made for a piece beforehand. -/
def entryLabels : Piece → List Label
  | .groups entries _ => entries.flatten
  | _ => []

end Piece

end Typed

/-- All exits that are registered lead to labels that are made. -/
def LowerState.ExitsMade (s : LowerState) : Prop :=
  ∀ target ex, s.targets.lookup target = some ex →
    ex.breakLabel.id < s.labels ∧ ∀ l ∈ ex.continueLabel, l.id < s.labels

namespace LowerState.ExitsMade

variable {s : LowerState} {n : Nat} {target : Target} {ex : Exits}

theorem mono (h : s.ExitsMade) (le : s.labels ≤ n) : ExitsMade ⟨n, s.targets⟩ := by
  intro t e found
  obtain ⟨hb, hc⟩ := h t e found
  exact ⟨Nat.lt_of_lt_of_le hb le, fun l hl => Nat.lt_of_lt_of_le (hc l hl) le⟩

theorem register (h : s.ExitsMade) (le : s.labels ≤ n) (hb : ex.breakLabel.id < n)
    (hc : ∀ l ∈ ex.continueLabel, l.id < n) : ExitsMade ⟨n, (target, ex) :: s.targets⟩ := by
  intro t e found
  rw [List.lookup_cons] at found
  split at found
  · cases found
    exact ⟨hb, hc⟩
  · exact h.mono le t e found

end LowerState.ExitsMade

theorem scoped_makeLabels {n n' : Nat} (h : n ≤ n') : Scoped n (Typed.makeLabels n n') n' := by
  obtain ⟨k, rfl⟩ := Nat.exists_eq_add_of_le h
  induction k generalizing n with
  | zero => rw [Typed.makeLabels, Nat.add_zero, Nat.sub_self]; rfl
  | succ k ih =>
    rw [← Typed.makeLabels_cons (by omega), show n + (k + 1) = n + 1 + k by omega]
    exact ⟨List.forall_mem_nil _, ih (Nat.le_add_right _ _)⟩

theorem binds_makeLabels (id n n' : Nat) : binds id (Typed.makeLabels n n') = 0 := by
  rw [binds, Typed.makeLabels, List.countP_replicate]
  exact if_neg Bool.false_ne_true

theorem scoped_binds {n : Nat} {ls : List Label} (h : ∀ l ∈ ls, l.id < n) : Scoped n (ls.map .bind) n := by
  induction ls with
  | nil => rfl
  | cons l ls ih =>
    rw [List.forall_mem_cons] at h
    exact ⟨List.forall_mem_singleton.2 h.1, ih h.2⟩

theorem binds_map_bind (id : Nat) (ls : List Label) : binds id (ls.map .bind) = ls.count ⟨id⟩ := by
  induction ls with
  | nil => rfl
  | cons l ls ih =>
    obtain ⟨k⟩ := l
    rw [List.map_cons, binds_bind, ih, List.count_cons]
    simp

namespace Typed

/-- What lowering a piece does with labels: exits keep leading to labels that are made, labels are made
before they are mentioned, and those made for the piece and in it are bound once. -/
structure Piece.LabelsIn (piece : Piece) (s : LowerState) (cs : List Call) (s' : LowerState) : Prop where
  exits : s'.ExitsMade
  order : Scoped s.labels cs s'.labels
  once : ∀ id, binds id cs =
    piece.entryLabels.count ⟨id⟩ + if s.labels ≤ id ∧ id < s'.labels then 1 else 0

namespace Piece.LabelsIn

variable {piece : Piece} {s s' : LowerState} {cs : List Call}

theorem of (none : piece.entryLabels = []) (exits : s'.ExitsMade)
    (h : Disciplined s.labels cs s'.labels) : piece.LabelsIn s cs s' :=
  ⟨exits, h.order, fun id => by rw [h.once, none, List.count_nil, Nat.zero_add]⟩

theorem disciplined (h : piece.LabelsIn s cs s') (none : piece.entryLabels = []) :
    Disciplined s.labels cs s'.labels :=
  ⟨h.order, fun id => by rw [h.once, none, List.count_nil, Nat.zero_add]⟩

/-- The labels of a switch are made in front of it, and bound in front of its groups and behind them. -/
theorem switched {groups : List (SwitchGroup CaseLabel Stmt)} {plan : SwitchPlan} {n : Nat}
    (h : (Piece.groups plan.entries groups).LabelsIn s cs s') (plans : PlansAll none groups (n + 1) plan s.labels)
    (single : defaults groups ≤ 1) :
    Disciplined n (.makeLabel :: (makeLabels (n + 1) s.labels ++ (.switch (plan.arms.map (·.1))
      (plan.arms.map (·.2)) (plan.default?.getD ⟨n⟩) :: (cs ++ [.bind ⟨n⟩])))) s'.labels where
  order := by
    have leP := plans.le
    have leG := h.order.le
    exact ⟨nofun, scoped_append.2 ⟨s.labels, scoped_makeLabels leP, plans.mentioned single (Nat.lt_succ_self n),
      scoped_append.2 ⟨s'.labels, h.order, List.forall_mem_singleton.2 (show n < s'.labels by omega), rfl⟩⟩⟩
  once id := by
    have leP := plans.le
    have leG := h.order.le
    simp only [binds_makeLabel, binds_append, binds_makeLabels, binds_switch, binds_bind, binds_nil, h.once,
      Piece.entryLabels, plans.count single id]
    grind

end Piece.LabelsIn

/-- The code of a piece is disciplined. -/
theorem Lowers.labelsIn {piece : Piece} {s s' : LowerState} {cs : List Call} (h : Lowers piece s cs s')
    (exits : s.ExitsMade) (single : piece.SingleDefaults)
    (entries : ∀ l ∈ piece.entryLabels, l.id < s.labels) : piece.LabelsIn s cs s' := by
  induction h with
  | block _ ih =>
    have body := ih exits single nofun
    exact .of rfl body.exits (body.disciplined rfl)
  | declare | strayBreak | strayContinue | continueSwitch | empty | nil | absent =>
    exact .of rfl exits (.plain rfl)
  | define emits =>
    have code := emits.disciplined trivial
    exact .of rfl (exits.mono code.order.le) (code.append (.plain rfl))
  | expr emits =>
    have code := emits.disciplined trivial
    exact .of rfl (exits.mono code.order.le) code
  | @ifThen line c t s cs n cs' s' emits _ ih =>
    have condition := emits.disciplined (show s.labels < s.labels + 1 by omega)
    have part := ih (exits.mono (Nat.le_of_succ_le condition.order.le)) single nofun
    exact .of rfl part.exits (condition.around (part.disciplined rfl))
  | @ifElse line c t e s cs n cs₁ s₁ cs₂ s' emits _ _ ihT ihE =>
    have condition := emits.disciplined (show s.labels < s.labels + 1 by omega)
    have thenPart := ihT (exits.mono (Nat.le_of_succ_le condition.order.le)) single.1 nofun
    have elsePart := ihE (thenPart.exits.mono (Nat.le_succ _)) single.2 nofun
    exact .of rfl elsePart.exits (condition.ifElse (thenPart.disciplined rfl) (elsePart.disciplined rfl))
  | @whileDo line target c body s cs n cs' s' emits _ ih =>
    have condition := emits.disciplined (show s.labels + 1 < s.labels + 2 by omega)
    have le := condition.order.le
    have part := ih (exits.register (by omega) (show s.labels + 1 < n by omega)
      (by rintro l ⟨⟩; show s.labels < n; omega)) single nofun
    exact .of rfl part.exits (condition.whileDo (part.disciplined rfl))
  | @doWhile line target body c s cs s₁ cs' n _ emits ih =>
    have part := ih (exits.register (by omega) (show s.labels + 2 < s.labels + 3 by omega)
      (by rintro l ⟨⟩; show s.labels + 1 < s.labels + 3; omega)) single nofun
    have inside := part.disciplined rfl
    have le : s.labels + 3 ≤ s₁.labels := inside.order.le
    have condition := emits.disciplined (show s.labels < s₁.labels by omega)
    exact .of rfl (part.exits.mono condition.order.le) (inside.doWhile condition)
  | @forLoop line target init c update body s cs₀ s₀ cs₁ s₁ cs₂ s₂ cs₃ n _ _ _ emits ihI ihB ihU =>
    have initPart := ihI exits single.1 nofun
    have bodyPart := ihB (initPart.exits.register (by omega) (show s₀.labels + 3 < s₀.labels + 4 by omega)
      (by rintro l ⟨⟩; show s₀.labels + 1 < s₀.labels + 4; omega)) single.2.2 nofun
    have updatePart := ihU bodyPart.exits single.2.1 nofun
    have inside := bodyPart.disciplined rfl
    have le : s₀.labels + 4 ≤ s₁.labels := inside.order.le
    have le' := updatePart.order.le
    have condition := emits.disciplined (show s₀.labels < s₂.labels by omega)
    exact .of rfl (updatePart.exits.mono condition.order.le)
      ((initPart.disciplined rfl).append (inside.forLoop (updatePart.disciplined rfl) condition))
  | @switch line target d groups s cs n plan n₁ cs' s' emits plans _ ih =>
    have leD := (emits.disciplined trivial).order.le
    have leP := plans.le
    have part := ih (exits.register (by omega) (show n < n₁ by omega) nofun)
      ⟨plans.length, single.2⟩ (plans.made single.1)
    exact .of rfl part.exits ((emits.disciplined trivial).append (part.switched plans single.1))
  | breakOut found => exact .of rfl exits (.jump (exits _ _ found).1)
  | continueLoop found hl => exact .of rfl exits (.jump ((exits _ _ found).2 _ hl))
  | ret => exact .of rfl exits (.plain rfl)
  | retValue emits =>
    have code := emits.disciplined trivial
    exact .of rfl (exits.mono code.order.le) (code.append (.plain rfl))
  | cons _ _ ih ihR =>
    have first := ih exits single.1 nofun
    have rest := ihR first.exits single.2 nofun
    exact .of rfl rest.exits ((first.disciplined rfl).append (rest.disciplined rfl))
  | present _ ih =>
    have part := ih exits single nofun
    exact .of rfl part.exits (part.disciplined rfl)
  | @noGroups entryLists s =>
    obtain rfl : entryLists = [] := List.eq_nil_of_length_eq_zero single.1
    exact .of rfl exits (.plain rfl)
  | @group entryLists labels stmts rest s cs s₁ cs' s' _ _ ih ihR =>
    obtain ⟨entry, entryLists, rfl⟩ := List.exists_cons_of_length_eq_add_one single.1
    rw [Piece.entryLabels, List.flatten_cons] at entries
    have first := ih exits single.2.1 nofun
    obtain ⟨orderS, onceS⟩ := first.disciplined rfl
    have leS := orderS.le
    have others := ihR first.exits ⟨Nat.succ.inj single.1, single.2.2⟩ fun l mem =>
      Nat.lt_of_lt_of_le (entries l (List.mem_append_right _ mem)) leS
    obtain ⟨exitsR, orderR, onceR⟩ := others
    have leR := orderR.le
    refine ⟨exitsR, scoped_append.2 ⟨s.labels, scoped_binds fun l mem => entries l (List.mem_append_left _ mem),
      scoped_append.2 ⟨s₁.labels, orderS, orderR⟩⟩, fun id => ?_⟩
    rw [binds_append, binds_append, List.headD_cons, binds_map_bind, onceS, onceR, Piece.entryLabels,
      Piece.entryLabels, List.flatten_cons, List.count_append, List.tail_cons]
    grind

end Typed

end Stacklet
