import Stacklet.Lowering.Stmt
import Stacklet.Proofs.Lowering.Expr

/-!
# The code of statements

`Lowers piece s calls s'` says, by one rule for each form of statement, which calls lower a piece of a
program from one state to another. Whatever lowering makes of a statement follows the rules
(`lower_lowers`).
-/

namespace Stacklet

open Lower

namespace Lower

variable {s s' : LowerState} {cs : List Call} {u : Unit} {α β : Type} {x : Lower α} {b : β}

theorem makes_register {target : Target} {ex : Exits} :
    Makes (register target ex) s cs u s' ↔ cs = [] ∧ s' = ⟨s.labels, (target, ex) :: s.targets⟩ := by
  unfold Makes register
  rw [Lowered.mk.injEq]
  exact ⟨fun ⟨hc, hs, _⟩ => ⟨hc.symm, hs.symm⟩, fun ⟨hc, hs⟩ => ⟨hc.symm, hs.symm, rfl⟩⟩

theorem makes_exits {target : Target} {ex : Exits} :
    Makes (exits target) s cs ex s' ↔ s.targets.lookup target = some ex ∧ cs = [] ∧ s' = s := by
  unfold Makes exits
  cases s.targets.lookup target with
  | none => exact ⟨nofun, nofun⟩
  | some e =>
    rw [Lowered.mk.injEq, Except.ok.injEq, Option.some.injEq]
    exact ⟨fun ⟨hc, hs, he⟩ => ⟨he, hc.symm, hs.symm⟩, fun ⟨he, hc, hs⟩ => ⟨hc.symm, hs.symm, he⟩⟩

theorem makes_placeAll {ls : List Label} :
    Makes (placeAll ls) s cs u s' ↔ cs = ls.map .bind ∧ s' = s := by
  induction ls generalizing s cs with
  | nil =>
    rw [placeAll, makes_pure]
    exact ⟨fun h => h.2, fun h => ⟨rfl, h⟩⟩
  | cons l ls ih =>
    simp only [placeAll, place, makes_bind, makes_emit, ih, List.map_cons]
    constructor
    · rintro ⟨_, _, _, _, ⟨rfl, rfl⟩, ⟨rfl, rfl⟩, rfl⟩
      exact ⟨rfl, rfl⟩
    · rintro ⟨rfl, rfl⟩
      exact ⟨[.bind l], (), _, ls.map .bind, ⟨rfl, rfl⟩, ⟨rfl, rfl⟩, rfl⟩

/-! What is known of all calls is known of those that are made: the calls of the first step come first,
and the rest is made after it. -/

variable {P : List Call → Prop}

@[elab_as_elim]
theorem Makes.next {f : α → Lower β} (h : Makes (x >>= f) s cs b s')
    (rest : ∀ cs₁ a s₁ cs₂, Makes x s cs₁ a s₁ → Makes (f a) s₁ cs₂ b s' → P (cs₁ ++ cs₂)) : P cs := by
  obtain ⟨cs₁, a, s₁, cs₂, first, second, rfl⟩ := makes_bind.1 h
  exact rest cs₁ a s₁ cs₂ first second

@[elab_as_elim]
theorem Makes.nextLabel {f : Label → Lower β} (h : Makes (label >>= f) s cs b s')
    (rest : ∀ cs', Makes (f ⟨s.labels⟩) ⟨s.labels + 1, s.targets⟩ cs' b s' → P (.makeLabel :: cs')) : P cs := by
  refine h.next fun cs₁ l s₁ cs' first second => ?_
  obtain ⟨rfl, rfl, rfl⟩ := makes_label.1 first
  exact rest cs' second

@[elab_as_elim]
theorem Makes.nextEmit {call : Call} {f : Unit → Lower β} (h : Makes (emit call >>= f) s cs b s')
    (rest : ∀ cs', Makes (f ()) s cs' b s' → P (call :: cs')) : P cs := by
  refine h.next fun cs₁ _ s₁ cs' first second => ?_
  obtain ⟨rfl, rfl⟩ := makes_emit.1 first
  exact rest cs' second

theorem Makes.nextRegister {target : Target} {ex : Exits} {f : Unit → Lower β}
    (h : Makes (register target ex >>= f) s cs b s') :
    Makes (f ()) ⟨s.labels, (target, ex) :: s.targets⟩ cs b s' := by
  refine h.next fun cs₁ _ s₁ cs' first second => ?_
  obtain ⟨rfl, rfl⟩ := makes_register.1 first
  exact second

end Lower

namespace Typed

/-- The condition that always holds. -/
def Expr.always : Expr := .literal 0 .boolean (.bool true)

/-- The labels that are made for a group of a switch: its arms and the labels to be bound in front of it,
with the label of the default and the number of labels before and after. -/
inductive Plans : Option Label → List CaseLabel → Nat → List (Int32 × Label) → List Label →
    Option Label → Nat → Prop
  | nil {d n} : Plans d [] n [] [] d n
  | case {d v rest n arms entry d' n'} : Plans d rest (n + 1) arms entry d' n' →
    Plans d (.case v :: rest) n ((v, ⟨n⟩) :: arms) (⟨n⟩ :: entry) d' n'
  | newDefault {rest n arms entry d' n'} : Plans (some ⟨n⟩) rest (n + 1) arms entry d' n' →
    Plans none (.otherwise :: rest) n arms (⟨n⟩ :: entry) d' n'
  | oldDefault {l rest n arms entry d' n'} : Plans (some l) rest n arms entry d' n' →
    Plans (some l) (.otherwise :: rest) n arms (l :: entry) d' n'

/-- The labels that are made for the groups of a switch. -/
inductive PlansAll : Option Label → List (SwitchGroup CaseLabel Stmt) → Nat → SwitchPlan → Nat → Prop
  | nil {d n} : PlansAll d [] n ⟨[], [], d⟩ n
  | cons {d group rest n arms entry d' n₁ plan n'} : Plans d group.labels n arms entry d' n₁ →
    PlansAll d' rest n₁ plan n' →
    PlansAll d (group :: rest) n ⟨arms ++ plan.arms, entry :: plan.entries, plan.default?⟩ n'

/-- Calls that make labels from one number of them to another. -/
def makeLabels (n n' : Nat) : List Call := List.replicate (n' - n) .makeLabel

theorem makeLabels_cons {n n' : Nat} (h : n + 1 ≤ n') :
    .makeLabel :: makeLabels (n + 1) n' = makeLabels n n' := by
  rw [makeLabels, makeLabels, ← List.replicate_succ, show n' - (n + 1) + 1 = n' - n by omega]

theorem makeLabels_append {n n₁ n' : Nat} (h : n ≤ n₁) (h' : n₁ ≤ n') :
    makeLabels n n₁ ++ makeLabels n₁ n' = makeLabels n n' := by
  rw [makeLabels, makeLabels, makeLabels, List.replicate_append_replicate,
    show n₁ - n + (n' - n₁) = n' - n by omega]

theorem planGroup_plans {labels : List CaseLabel} {d d' : Option Label} {s s' : LowerState}
    {cs : List Call} {arms : List (Int32 × Label)} {entry : List Label}
    (made : Makes (planGroup d labels) s cs (arms, entry, d') s') :
    ∃ n, s.labels ≤ n ∧ s' = ⟨n, s.targets⟩ ∧ cs = makeLabels s.labels n ∧
      Plans d labels s.labels arms entry d' n := by
  induction labels generalizing d s cs arms entry with
  | nil =>
    obtain ⟨h, rfl, rfl⟩ := makes_pure.1 made
    cases h
    exact ⟨_, Nat.le_refl _, rfl, by rw [makeLabels, Nat.sub_self]; rfl, .nil⟩
  | cons label rest ih =>
    cases label with
    | case v =>
      simp only [planGroup, makes_bind, makes_label, makes_pure] at made
      obtain ⟨_, _, _, _, ⟨rfl, rfl, rfl⟩, ⟨cs₁, ⟨arms₁, entry₁, d₁⟩, s₁, _, hr, ⟨h, rfl, rfl⟩, rfl⟩,
        rfl⟩ := made
      cases h
      obtain ⟨n, le, rfl, rfl, plans⟩ := ih hr
      exact ⟨n, Nat.le_of_succ_le le, rfl, by rw [List.append_nil, ← makeLabels_cons le]; rfl, .case plans⟩
    | otherwise =>
      cases d with
      | none =>
        simp only [planGroup, makes_bind, makes_label, makes_pure] at made
        obtain ⟨_, _, _, _, ⟨rfl, rfl, rfl⟩, ⟨cs₁, ⟨arms₁, entry₁, d₁⟩, s₁, _, hr, ⟨h, rfl, rfl⟩, rfl⟩,
          rfl⟩ := made
        cases h
        obtain ⟨n, le, rfl, rfl, plans⟩ := ih hr
        exact ⟨n, Nat.le_of_succ_le le, rfl, by rw [List.append_nil, ← makeLabels_cons le]; rfl,
          .newDefault plans⟩
      | some l =>
        simp only [planGroup, makes_bind, makes_pure] at made
        obtain ⟨_, _, _, _, ⟨rfl, rfl, rfl⟩, ⟨cs₁, ⟨arms₁, entry₁, d₁⟩, s₁, _, hr, ⟨h, rfl, rfl⟩, rfl⟩,
          rfl⟩ := made
        cases h
        obtain ⟨n, le, rfl, rfl, plans⟩ := ih hr
        exact ⟨n, le, rfl, by rw [List.append_nil]; rfl, .oldDefault plans⟩

theorem planGroups_plans {groups : List (SwitchGroup CaseLabel Stmt)} {d : Option Label}
    {s s' : LowerState} {cs : List Call} {plan : SwitchPlan}
    (made : Makes (planGroups d groups) s cs plan s') :
    ∃ n, s.labels ≤ n ∧ s' = ⟨n, s.targets⟩ ∧ cs = makeLabels s.labels n ∧
      PlansAll d groups s.labels plan n := by
  induction groups generalizing d s cs plan with
  | nil =>
    obtain ⟨rfl, rfl, rfl⟩ := makes_pure.1 made
    exact ⟨_, Nat.le_refl _, rfl, by rw [makeLabels, Nat.sub_self]; rfl, .nil⟩
  | cons group rest ih =>
    simp only [planGroups, makes_bind, makes_pure] at made
    obtain ⟨cs₁, ⟨arms, entry, d₁⟩, s₁, _, hg, ⟨cs₂, plan₁, s₂, _, hr, ⟨rfl, rfl, rfl⟩, rfl⟩, rfl⟩ := made
    obtain ⟨n₁, le₁, rfl, rfl, plans⟩ := planGroup_plans hg
    obtain ⟨n, le, rfl, rfl, plansAll⟩ := ih hr
    exact ⟨n, Nat.le_trans le₁ le, rfl, by rw [List.append_nil, makeLabels_append le₁ le],
      .cons plans plansAll⟩

/-- A piece of a program that is lowered as a whole. The groups of a switch come with the labels to be
bound in front of them. -/
inductive Piece where
  | stmt (s : Stmt)
  | all (ss : List Stmt)
  | option (s : Option Stmt)
  | groups (entries : List (List Label)) (groups : List (SwitchGroup CaseLabel Stmt))

/-- The calls that lower a piece of a program. A `for` without a condition tests one that always
holds. -/
inductive Lowers : Piece → LowerState → List Call → LowerState → Prop
  | block {line body s cs s'} : Lowers (.all body) s cs s' → Lowers (.stmt (.block line body)) s cs s'
  | declare {line var s} : Lowers (.stmt (.declare line var none)) s [] s
  | define {line var init s cs n} : Emits init .value s.labels cs n →
    Lowers (.stmt (.declare line var (some init))) s (cs ++ [.add (.store var.ty.storage var.slot)])
      ⟨n, s.targets⟩
  | expr {line e s cs n} : Emits e .effect s.labels cs n →
    Lowers (.stmt (.expr line e)) s cs ⟨n, s.targets⟩
  | ifThen {line c t s cs n cs' s'} : Emits c (.branch ⟨s.labels⟩ false) (s.labels + 1) cs n →
    Lowers (.stmt t) ⟨n, s.targets⟩ cs' s' →
    Lowers (.stmt (.ifElse line c t none)) s (.makeLabel :: (cs ++ (cs' ++ [.bind ⟨s.labels⟩]))) s'
  | ifElse {line c t e s cs n cs₁ s₁ cs₂ s'} : Emits c (.branch ⟨s.labels⟩ false) (s.labels + 1) cs n →
    Lowers (.stmt t) ⟨n, s.targets⟩ cs₁ s₁ → Lowers (.stmt e) ⟨s₁.labels + 1, s₁.targets⟩ cs₂ s' →
    Lowers (.stmt (.ifElse line c t (some e))) s
      (.makeLabel :: (cs ++ (cs₁ ++ (.makeLabel :: .jump .goto ⟨s₁.labels⟩ :: .bind ⟨s.labels⟩ ::
        (cs₂ ++ [.bind ⟨s₁.labels⟩]))))) s'
  | whileDo {line target c body s cs n cs' s'} :
    Emits c (.branch ⟨s.labels + 1⟩ false) (s.labels + 2) cs n →
    Lowers (.stmt body) ⟨n, (target, ⟨⟨s.labels + 1⟩, some ⟨s.labels⟩⟩) :: s.targets⟩ cs' s' →
    Lowers (.stmt (.whileDo line target c body)) s
      (.makeLabel :: .makeLabel :: .bind ⟨s.labels⟩ ::
        (cs ++ (cs' ++ [.jump .goto ⟨s.labels⟩, .bind ⟨s.labels + 1⟩]))) s'
  | doWhile {line target body c s cs s₁ cs' n} :
    Lowers (.stmt body)
      ⟨s.labels + 3, (target, ⟨⟨s.labels + 2⟩, some ⟨s.labels + 1⟩⟩) :: s.targets⟩ cs s₁ →
    Emits c (.branch ⟨s.labels⟩ true) s₁.labels cs' n →
    Lowers (.stmt (.doWhile line target body c)) s
      (.makeLabel :: .makeLabel :: .makeLabel :: .bind ⟨s.labels⟩ ::
        (cs ++ (.bind ⟨s.labels + 1⟩ :: (cs' ++ [.bind ⟨s.labels + 2⟩])))) ⟨n, s₁.targets⟩
  | forLoop {line target init c update body s cs₀ s₀ cs₁ s₁ cs₂ s₂ cs₃ n} : Lowers (.all init) s cs₀ s₀ →
    Lowers (.option body)
      ⟨s₀.labels + 4, (target, ⟨⟨s₀.labels + 3⟩, some ⟨s₀.labels + 1⟩⟩) :: s₀.targets⟩ cs₁ s₁ →
    Lowers (.all update) s₁ cs₂ s₂ → Emits (c.getD .always) (.branch ⟨s₀.labels⟩ true) s₂.labels cs₃ n →
    Lowers (.stmt (.forLoop line target init c update body)) s
      (cs₀ ++ (.makeLabel :: .makeLabel :: .makeLabel :: .makeLabel :: .jump .goto ⟨s₀.labels + 2⟩ ::
        .bind ⟨s₀.labels⟩ :: (cs₁ ++ (.bind ⟨s₀.labels + 1⟩ :: (cs₂ ++ (.bind ⟨s₀.labels + 2⟩ ::
          (cs₃ ++ [.bind ⟨s₀.labels + 3⟩]))))))) ⟨n, s₂.targets⟩
  | switch {line target d groups s cs n plan n₁ cs' s'} : Emits d .value s.labels cs n →
    PlansAll none groups (n + 1) plan n₁ →
    Lowers (.groups plan.entries groups) ⟨n₁, (target, ⟨⟨n⟩, none⟩) :: s.targets⟩ cs' s' →
    Lowers (.stmt (.switch line target d groups)) s
      (cs ++ (.makeLabel :: (makeLabels (n + 1) n₁ ++
        (.switch (plan.arms.map (·.1)) (plan.arms.map (·.2)) (plan.default?.getD ⟨n⟩) ::
          (cs' ++ [.bind ⟨n⟩]))))) s'
  | strayBreak {line s} : Lowers (.stmt (.breakOut line none)) s [] s
  | breakOut {line target ex s} : s.targets.lookup target = some ex →
    Lowers (.stmt (.breakOut line (some target))) s [.jump .goto ex.breakLabel] s
  | strayContinue {line s} : Lowers (.stmt (.continueLoop line none)) s [] s
  | continueLoop {line target ex l s} : s.targets.lookup target = some ex → ex.continueLabel = some l →
    Lowers (.stmt (.continueLoop line (some target))) s [.jump .goto l] s
  | continueSwitch {line target ex s} : s.targets.lookup target = some ex → ex.continueLabel = none →
    Lowers (.stmt (.continueLoop line (some target))) s [] s
  | ret {line s} : Lowers (.stmt (.ret line none)) s [.add .ret] s
  | retValue {line value s cs n} : Emits value .value s.labels cs n →
    Lowers (.stmt (.ret line (some value))) s (cs ++ [.add (.retValue value.ty.storage)]) ⟨n, s.targets⟩
  | empty {line s} : Lowers (.stmt (.empty line)) s [] s
  | nil {s} : Lowers (.all []) s [] s
  | cons {t rest s cs s₁ cs' s'} : Lowers (.stmt t) s cs s₁ → Lowers (.all rest) s₁ cs' s' →
    Lowers (.all (t :: rest)) s (cs ++ cs') s'
  | absent {s} : Lowers (.option none) s [] s
  | present {t s cs s'} : Lowers (.stmt t) s cs s' → Lowers (.option (some t)) s cs s'
  | noGroups {entries s} : Lowers (.groups entries []) s [] s
  | group {entries labels stmts rest s cs s₁ cs' s'} : Lowers (.all stmts) s cs s₁ →
    Lowers (.groups entries.tail rest) s₁ cs' s' →
    Lowers (.groups entries (⟨labels, stmts⟩ :: rest)) s ((entries.headD []).map .bind ++ (cs ++ cs')) s'

namespace Stmt

mutual

/-- The code of a statement follows the rules. -/
theorem lower_lowers (t : Stmt) {s s' : LowerState} {cs : List Call} {u : Unit}
    (made : Makes t.lower s cs u s') : Lowers (.stmt t) s cs s' := by
  match t with
  | .block line body => exact .block (lowerAll_lowers body made)
  | .declare line var none =>
    obtain ⟨-, rfl, rfl⟩ := makes_pure.1 made
    exact .declare
  | .declare line var (some init) =>
    simp only [lower, Lower.add, makes_bind, makes_emit] at made
    obtain ⟨cs₁, _, s₁, _, hi, ⟨rfl, rfl⟩, rfl⟩ := made
    obtain ⟨n, rfl, emits⟩ := init.value_emits _ _ _ _ hi
    exact .define emits
  | .expr line e =>
    obtain ⟨n, rfl, emits⟩ := e.effect_emits _ _ _ _ made
    exact .expr emits
  | .ifElse line c t none =>
    rw [lower] at made
    refine made.nextLabel fun _ made => ?_
    refine made.next fun cs₁ _ s₁ _ hc made => ?_
    refine made.next fun cs₂ _ s₂ _ ht made => ?_
    obtain ⟨rfl, rfl⟩ := makes_emit.1 made
    obtain ⟨n, rfl, emits⟩ := c.branch_emits _ _ _ _ _ _ hc
    exact .ifThen emits (lower_lowers t ht)
  | .ifElse line c t (some e) =>
    rw [lower] at made
    refine made.nextLabel fun _ made => ?_
    refine made.next fun cs₁ _ s₁ _ hc made => ?_
    refine made.next fun cs₂ _ s₂ _ ht made => ?_
    refine made.nextLabel fun _ made => ?_
    refine made.nextEmit fun _ made => ?_
    refine made.nextEmit fun _ made => ?_
    refine made.next fun cs₃ _ s₃ _ he made => ?_
    obtain ⟨rfl, rfl⟩ := makes_emit.1 made
    obtain ⟨n, rfl, emits⟩ := c.branch_emits _ _ _ _ _ _ hc
    exact .ifElse emits (lower_lowers t ht) (lower_lowers e he)
  | .whileDo line target c body =>
    rw [lower] at made
    refine made.nextLabel fun _ made => ?_
    refine made.nextLabel fun _ made => ?_
    refine made.nextRegister.nextEmit fun _ made => ?_
    refine made.next fun cs₁ _ s₁ _ hc made => ?_
    refine made.next fun cs₂ _ s₂ _ hb made => ?_
    refine made.nextEmit fun _ made => ?_
    obtain ⟨rfl, rfl⟩ := makes_emit.1 made
    obtain ⟨n, rfl, emits⟩ := c.branch_emits _ _ _ _ _ _ hc
    exact .whileDo emits (lower_lowers body hb)
  | .doWhile line target body c =>
    rw [lower] at made
    refine made.nextLabel fun _ made => ?_
    refine made.nextLabel fun _ made => ?_
    refine made.nextLabel fun _ made => ?_
    refine made.nextRegister.nextEmit fun _ made => ?_
    refine made.next fun cs₁ _ s₁ _ hb made => ?_
    refine made.nextEmit fun _ made => ?_
    refine made.next fun cs₂ _ s₂ _ hc made => ?_
    obtain ⟨rfl, rfl⟩ := makes_emit.1 made
    obtain ⟨n, rfl, emits⟩ := c.branch_emits _ _ _ _ _ _ hc
    exact .doWhile (lower_lowers body hb) emits
  | .forLoop line target init c update body =>
    rw [lower] at made
    refine made.next fun cs₀ _ s₀ _ hi made => ?_
    refine made.nextLabel fun _ made => ?_
    refine made.nextLabel fun _ made => ?_
    refine made.nextLabel fun _ made => ?_
    refine made.nextLabel fun _ made => ?_
    refine made.nextRegister.nextEmit fun _ made => ?_
    refine made.nextEmit fun _ made => ?_
    refine made.next fun cs₁ _ s₁ _ hb made => ?_
    refine made.nextEmit fun _ made => ?_
    refine made.next fun cs₂ _ s₂ _ hu made => ?_
    refine made.nextEmit fun cs₃ tested => ?_
    have emits : ∃ cs₄ n, Emits (c.getD .always) (.branch ⟨s₀.labels⟩ true) s₂.labels cs₄ n ∧
        cs₃ = cs₄ ++ [.bind ⟨s₀.labels + 3⟩] ∧ s' = ⟨n, s₂.targets⟩ := by
      cases c with
      | none =>
        refine tested.nextEmit fun _ made => ?_
        obtain ⟨rfl, rfl⟩ := makes_emit.1 made
        exact ⟨_, _, .taken, rfl, rfl⟩
      | some c =>
        refine tested.next fun cs₄ _ s₃ _ hc made => ?_
        obtain ⟨rfl, rfl⟩ := makes_emit.1 made
        obtain ⟨n, rfl, emits⟩ := c.branch_emits _ _ _ _ _ _ hc
        exact ⟨cs₄, n, emits, rfl, rfl⟩
    obtain ⟨cs₄, n, emits, rfl, rfl⟩ := emits
    exact .forLoop (lowerAll_lowers init hi) (lowerOption_lowers body hb) (lowerAll_lowers update hu) emits
  | .switch line target d groups =>
    rw [lower] at made
    refine made.next fun cs₁ _ s₁ _ hd made => ?_
    refine made.nextLabel fun _ made => ?_
    refine made.nextRegister.next fun cs₂ plan s₂ _ hp made => ?_
    refine made.nextEmit fun _ made => ?_
    refine made.next fun cs₃ _ s₃ _ hg made => ?_
    obtain ⟨rfl, rfl⟩ := makes_emit.1 made
    obtain ⟨n, rfl, emits⟩ := d.value_emits _ _ _ _ hd
    obtain ⟨n₁, le, rfl, rfl, plans⟩ := planGroups_plans hp
    exact .switch emits plans (lowerGroups_lowers plan.entries groups hg)
  | .breakOut line none =>
    obtain ⟨-, rfl, rfl⟩ := makes_pure.1 made
    exact .strayBreak
  | .breakOut line (some target) =>
    simp only [lower, goto, makes_bind, makes_exits, makes_emit] at made
    obtain ⟨_, ex, _, _, ⟨found, rfl, rfl⟩, ⟨rfl, rfl⟩, rfl⟩ := made
    exact .breakOut found
  | .continueLoop line none =>
    obtain ⟨-, rfl, rfl⟩ := makes_pure.1 made
    exact .strayContinue
  | .continueLoop line (some target) =>
    simp only [lower, goto, makes_bind, makes_exits] at made
    obtain ⟨_, ex, _, _, ⟨found, rfl, rfl⟩, rest, rfl⟩ := made
    cases hl : ex.continueLabel with
    | none =>
      rw [hl] at rest
      obtain ⟨-, rfl, rfl⟩ := makes_pure.1 rest
      exact .continueSwitch found hl
    | some l =>
      rw [hl] at rest
      obtain ⟨rfl, rfl⟩ := makes_emit.1 rest
      exact .continueLoop found hl
  | .ret line none =>
    obtain ⟨rfl, rfl⟩ := makes_emit.1 made
    exact .ret
  | .ret line (some value) =>
    simp only [lower, Lower.add, makes_bind, makes_emit] at made
    obtain ⟨cs₁, _, s₁, _, hv, ⟨rfl, rfl⟩, rfl⟩ := made
    obtain ⟨n, rfl, emits⟩ := value.value_emits _ _ _ _ hv
    exact .retValue emits
  | .empty line =>
    obtain ⟨-, rfl, rfl⟩ := makes_pure.1 made
    exact .empty

/-- The code of statements in order follows the rules. -/
theorem lowerAll_lowers (ts : List Stmt) {s s' : LowerState} {cs : List Call} {u : Unit}
    (made : Makes (lowerAll ts) s cs u s') : Lowers (.all ts) s cs s' := by
  match ts with
  | [] =>
    obtain ⟨-, rfl, rfl⟩ := makes_pure.1 made
    exact .nil
  | t :: rest =>
    simp only [lowerAll, makes_bind] at made
    obtain ⟨cs₁, _, s₁, cs₂, ht, hr, rfl⟩ := made
    exact .cons (lower_lowers t ht) (lowerAll_lowers rest hr)

theorem lowerOption_lowers (t : Option Stmt) {s s' : LowerState} {cs : List Call} {u : Unit}
    (made : Makes (lowerOption t) s cs u s') : Lowers (.option t) s cs s' := by
  match t with
  | none =>
    obtain ⟨-, rfl, rfl⟩ := makes_pure.1 made
    exact .absent
  | some t => exact .present (lower_lowers t made)

theorem lowerGroups_lowers (entries : List (List Label)) (groups : List (SwitchGroup CaseLabel Stmt))
    {s s' : LowerState} {cs : List Call} {u : Unit} (made : Makes (lowerGroups entries groups) s cs u s') :
    Lowers (.groups entries groups) s cs s' := by
  match groups with
  | [] =>
    obtain ⟨-, rfl, rfl⟩ := makes_pure.1 made
    exact .noGroups
  | ⟨labels, stmts⟩ :: rest =>
    simp only [lowerGroups, makes_bind, makes_placeAll] at made
    obtain ⟨_, _, _, _, ⟨rfl, rfl⟩, ⟨cs₁, _, s₁, cs₂, hs, hr, rfl⟩, rfl⟩ := made
    exact .group (lowerAll_lowers stmts hs) (lowerGroups_lowers entries.tail rest hr)

end

end Stmt

/-- A program that is lowered has a return behind the calls of its body. -/
theorem Program.makes_of_ok {p : Program} (h : p.lower.run.result = .ok ()) :
    ∃ cs s, Makes (Stmt.lowerAll p.body) ⟨0, []⟩ cs () s ∧ p.lower.run.calls = cs ++ [.add .ret] := by
  have made : Makes p.lower ⟨0, []⟩ p.lower.run.calls () p.lower.run.state := by
    rw [Makes, ← h]
    rfl
  obtain ⟨cs, _, s, _, body, last, calls⟩ := makes_bind.1 made
  obtain ⟨rfl, -⟩ := makes_emit.1 last
  exact ⟨cs, s, body, calls⟩

/-- A program that is lowered is lowered by the rules, with a return behind its body. -/
theorem Program.lowers_of_ok {p : Program} (h : p.lower.run.result = .ok ()) :
    ∃ cs s, Lowers (.all p.body) ⟨0, []⟩ cs s ∧ p.lower.run.calls = cs ++ [.add .ret] := by
  obtain ⟨cs, s, body, calls⟩ := makes_of_ok h
  exact ⟨cs, s, Stmt.lowerAll_lowers p.body body, calls⟩

end Typed

end Stacklet
