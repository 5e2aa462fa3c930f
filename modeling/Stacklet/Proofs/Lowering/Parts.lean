import Stacklet.Proofs.Lowering.Depths
import Stacklet.Proofs.Typing.Jumps

/-!
# Where the code of a statement stands

The code of a construct holds that of each of its parts between some calls before and after it (`Part`),
and so does that of a program for every statement in it, however deep (`Within`). The calls on both sides
start and end with an empty stack (`Within.levels`), so that the stack is empty where the code of a
statement begins and where it ends. Every statement of a tree has its place (`Lowers.holds`).
-/

namespace Stacklet.Typed

/-- A piece of a program, with the states before and after it is lowered. -/
structure Stretch where
  piece : Piece
  start : LowerState
  final : LowerState

/-- The code of a construct is that of a part of it between calls before and after it. -/
inductive Part : Stretch → List Call → List Call → Stretch → Prop
  | block {line body s s'} : Part ⟨.all body, s, s'⟩ [] [] ⟨.stmt (.block line body), s, s'⟩
  | ifThen {line c t s cs n s'} : Emits c (.branch ⟨s.labels⟩ false) (s.labels + 1) cs n →
    Part ⟨.stmt t, ⟨n, s.targets⟩, s'⟩ (.makeLabel :: cs) [.bind ⟨s.labels⟩]
      ⟨.stmt (.ifElse line c t none), s, s'⟩
  | thenPart {line c t e s cs n s₁ cs₂ s'} : Emits c (.branch ⟨s.labels⟩ false) (s.labels + 1) cs n →
    Lowers (.stmt e) ⟨s₁.labels + 1, s₁.targets⟩ cs₂ s' →
    Part ⟨.stmt t, ⟨n, s.targets⟩, s₁⟩ (.makeLabel :: cs)
      (.makeLabel :: .jump .goto ⟨s₁.labels⟩ :: .bind ⟨s.labels⟩ :: (cs₂ ++ [.bind ⟨s₁.labels⟩]))
      ⟨.stmt (.ifElse line c t (some e)), s, s'⟩
  | elsePart {line c t e s cs n cs₁ s₁ s'} : Emits c (.branch ⟨s.labels⟩ false) (s.labels + 1) cs n →
    Lowers (.stmt t) ⟨n, s.targets⟩ cs₁ s₁ →
    Part ⟨.stmt e, ⟨s₁.labels + 1, s₁.targets⟩, s'⟩
      (.makeLabel :: (cs ++ (cs₁ ++ [.makeLabel, .jump .goto ⟨s₁.labels⟩, .bind ⟨s.labels⟩])))
      [.bind ⟨s₁.labels⟩] ⟨.stmt (.ifElse line c t (some e)), s, s'⟩
  | whileDo {line target c body s cs n s'} : Emits c (.branch ⟨s.labels + 1⟩ false) (s.labels + 2) cs n →
    Part ⟨.stmt body, ⟨n, (target, ⟨⟨s.labels + 1⟩, some ⟨s.labels⟩⟩) :: s.targets⟩, s'⟩
      (.makeLabel :: .makeLabel :: .bind ⟨s.labels⟩ :: cs) [.jump .goto ⟨s.labels⟩, .bind ⟨s.labels + 1⟩]
      ⟨.stmt (.whileDo line target c body), s, s'⟩
  | doWhile {line target body c s s₁ cs n} : Emits c (.branch ⟨s.labels⟩ true) s₁.labels cs n →
    Part ⟨.stmt body, ⟨s.labels + 3, (target, ⟨⟨s.labels + 2⟩, some ⟨s.labels + 1⟩⟩) :: s.targets⟩, s₁⟩
      [.makeLabel, .makeLabel, .makeLabel, .bind ⟨s.labels⟩]
      (.bind ⟨s.labels + 1⟩ :: (cs ++ [.bind ⟨s.labels + 2⟩]))
      ⟨.stmt (.doWhile line target body c), s, ⟨n, s₁.targets⟩⟩
  | forInit {line target init c update body s s₀ cs₁ s₁ cs₂ s₂ cs₃ n} :
    Lowers (.option body)
      ⟨s₀.labels + 4, (target, ⟨⟨s₀.labels + 3⟩, some ⟨s₀.labels + 1⟩⟩) :: s₀.targets⟩ cs₁ s₁ →
    Lowers (.all update) s₁ cs₂ s₂ → Emits (c.getD .always) (.branch ⟨s₀.labels⟩ true) s₂.labels cs₃ n →
    Part ⟨.all init, s, s₀⟩ []
      (.makeLabel :: .makeLabel :: .makeLabel :: .makeLabel :: .jump .goto ⟨s₀.labels + 2⟩ ::
        .bind ⟨s₀.labels⟩ :: (cs₁ ++ (.bind ⟨s₀.labels + 1⟩ :: (cs₂ ++ (.bind ⟨s₀.labels + 2⟩ ::
          (cs₃ ++ [.bind ⟨s₀.labels + 3⟩]))))))
      ⟨.stmt (.forLoop line target init c update body), s, ⟨n, s₂.targets⟩⟩
  | forBody {line target init c update body s cs₀ s₀ s₁ cs₂ s₂ cs₃ n} : Lowers (.all init) s cs₀ s₀ →
    Lowers (.all update) s₁ cs₂ s₂ → Emits (c.getD .always) (.branch ⟨s₀.labels⟩ true) s₂.labels cs₃ n →
    Part ⟨.option body,
        ⟨s₀.labels + 4, (target, ⟨⟨s₀.labels + 3⟩, some ⟨s₀.labels + 1⟩⟩) :: s₀.targets⟩, s₁⟩
      (cs₀ ++ [.makeLabel, .makeLabel, .makeLabel, .makeLabel, .jump .goto ⟨s₀.labels + 2⟩, .bind ⟨s₀.labels⟩])
      (.bind ⟨s₀.labels + 1⟩ :: (cs₂ ++ (.bind ⟨s₀.labels + 2⟩ :: (cs₃ ++ [.bind ⟨s₀.labels + 3⟩]))))
      ⟨.stmt (.forLoop line target init c update body), s, ⟨n, s₂.targets⟩⟩
  | forUpdate {line target init c update body s cs₀ s₀ cs₁ s₁ s₂ cs₃ n} : Lowers (.all init) s cs₀ s₀ →
    Lowers (.option body)
      ⟨s₀.labels + 4, (target, ⟨⟨s₀.labels + 3⟩, some ⟨s₀.labels + 1⟩⟩) :: s₀.targets⟩ cs₁ s₁ →
    Emits (c.getD .always) (.branch ⟨s₀.labels⟩ true) s₂.labels cs₃ n →
    Part ⟨.all update, s₁, s₂⟩
      (cs₀ ++ (.makeLabel :: .makeLabel :: .makeLabel :: .makeLabel :: .jump .goto ⟨s₀.labels + 2⟩ ::
        .bind ⟨s₀.labels⟩ :: (cs₁ ++ [.bind ⟨s₀.labels + 1⟩])))
      (.bind ⟨s₀.labels + 2⟩ :: (cs₃ ++ [.bind ⟨s₀.labels + 3⟩]))
      ⟨.stmt (.forLoop line target init c update body), s, ⟨n, s₂.targets⟩⟩
  | switch {line target d groups s cs n plan n₁ s'} : Emits d .value s.labels cs n →
    PlansAll none groups (n + 1) plan n₁ →
    Part ⟨.groups plan.entries groups, ⟨n₁, (target, ⟨⟨n⟩, none⟩) :: s.targets⟩, s'⟩
      (cs ++ (.makeLabel :: (makeLabels (n + 1) n₁ ++
        [.switch (plan.arms.map (·.1)) (plan.arms.map (·.2)) (plan.default?.getD ⟨n⟩)])))
      [.bind ⟨n⟩] ⟨.stmt (.switch line target d groups), s, s'⟩
  | firstStmt {t rest s s₁ cs' s'} : Lowers (.all rest) s₁ cs' s' →
    Part ⟨.stmt t, s, s₁⟩ [] cs' ⟨.all (t :: rest), s, s'⟩
  | otherStmts {t rest s cs s₁ s'} : Lowers (.stmt t) s cs s₁ →
    Part ⟨.all rest, s₁, s'⟩ cs [] ⟨.all (t :: rest), s, s'⟩
  | present {t s s'} : Part ⟨.stmt t, s, s'⟩ [] [] ⟨.option (some t), s, s'⟩
  | firstGroup {entries labels stmts rest s s₁ cs' s'} : Lowers (.groups entries.tail rest) s₁ cs' s' →
    Part ⟨.all stmts, s, s₁⟩ ((entries.headD []).map .bind) cs'
      ⟨.groups entries (⟨labels, stmts⟩ :: rest), s, s'⟩
  | otherGroups {entries labels stmts rest s cs s₁ s'} : Lowers (.all stmts) s cs s₁ →
    Part ⟨.groups entries.tail rest, s₁, s'⟩ ((entries.headD []).map .bind ++ cs) []
      ⟨.groups entries (⟨labels, stmts⟩ :: rest), s, s'⟩

/-- The code of a piece stands somewhere inside that of another one. -/
inductive Within (part : Stretch) : List Call → List Call → Stretch → Prop
  | self : Within part [] [] part
  | part {before after before' after' inner whole} : Part inner before after whole →
    Within part before' after' inner → Within part (before ++ before') (after' ++ after) whole

variable {inner whole : Stretch} {before after cs : List Call} {P : (Label → Nat) → Prop}

/-- A construct is lowered as soon as each of its parts is. -/
theorem Part.lowers (h : Part inner before after whole) (lowers : Lowers inner.piece inner.start cs inner.final) :
    Lowers whole.piece whole.start (before ++ (cs ++ after)) whole.final := by
  cases h with
  | block => simpa using Lowers.block lowers
  | ifThen emits => exact .ifThen emits lowers
  | thenPart emits lowers₂ => exact .ifElse emits lowers lowers₂
  | elsePart emits lowers₁ => simpa using Lowers.ifElse emits lowers₁ lowers
  | whileDo emits => exact .whileDo emits lowers
  | doWhile emits => exact .doWhile lowers emits
  | forInit lowers₁ lowers₂ emits => exact .forLoop lowers lowers₁ lowers₂ emits
  | forBody lowers₀ lowers₂ emits => simpa using Lowers.forLoop lowers₀ lowers lowers₂ emits
  | forUpdate lowers₀ lowers₁ emits => simpa using Lowers.forLoop lowers₀ lowers₁ lowers emits
  | switch emits plans => simpa using Lowers.switch emits plans lowers
  | firstStmt lowers₂ => simpa using Lowers.cons lowers lowers₂
  | otherStmts lowers₁ => simpa using Lowers.cons lowers₁ lowers
  | present => simpa using Lowers.present lowers
  | firstGroup lowers₂ => exact .group lowers lowers₂
  | otherGroups lowers₁ => simpa using Lowers.group lowers₁ lowers

/-- The calls around a part start and end with an empty stack, whatever holds of the part itself. -/
theorem Part.levels (h : Part inner before after whole) (le : inner.start.labels ≤ inner.final.labels)
    (inside : Levels inner.start.labels inner.final.labels (inner.piece.Clears inner.start inner.final P)) :
    Levels whole.start.labels whole.final.labels (whole.piece.Clears whole.start whole.final fun level =>
      Moves level 0 before 0 ∧ P level ∧ Moves level 0 after 0) := by
  cases h with
  | block | present =>
    refine inside.imp fun level part exits _ => ?_
    obtain ⟨holds, exits⟩ := part exits nofun
    exact ⟨⟨.nil, holds, .nil⟩, exits⟩
  | ifThen emits => exact levels_ifThen emits le inside
  | thenPart emits lowers₂ =>
    refine (levels_ifElse emits le lowers₂.le inside lowers₂.levels).imp fun level h =>
      h.imp fun ⟨test, holds, between, part₂, last⟩ => ?_
    exact ⟨test, holds, between.append (part₂.append last)⟩
  | elsePart emits lowers₁ =>
    refine (levels_ifElse emits lowers₁.le le lowers₁.levels inside).imp fun level h =>
      h.imp fun ⟨test, part₁, between, holds, last⟩ => ?_
    exact ⟨test.append (part₁.append between), holds, last⟩
  | whileDo emits => exact levels_whileDo emits le inside
  | doWhile emits => exact levels_doWhile le inside emits
  | forInit lowers₁ lowers₂ emits =>
    refine (levels_forLoop le lowers₁.le lowers₂.le inside lowers₁.levels lowers₂.levels emits).imp fun level h =>
      h.imp fun ⟨holds, first, part₁, next, part₂, test⟩ => ?_
    exact ⟨.nil, holds, first.append (part₁.append (next.append (part₂.append test)))⟩
  | forBody lowers₀ lowers₂ emits =>
    refine (levels_forLoop lowers₀.le le lowers₂.le lowers₀.levels inside lowers₂.levels emits).imp fun level h =>
      h.imp fun ⟨part₀, first, holds, next, part₂, test⟩ => ?_
    exact ⟨part₀.append first, holds, next.append (part₂.append test)⟩
  | forUpdate lowers₀ lowers₁ emits =>
    refine (levels_forLoop lowers₀.le lowers₁.le le lowers₀.levels lowers₁.levels inside emits).imp fun level h =>
      h.imp fun ⟨part₀, first, part₁, next, holds, test⟩ => ?_
    exact ⟨part₀.append (first.append (part₁.append next)), holds, test⟩
  | switch emits plans => exact levels_switch emits plans le inside
  | firstStmt lowers₂ =>
    exact (levels_cons le lowers₂.le inside lowers₂.levels).imp fun level h =>
      h.imp fun ⟨holds, part₂⟩ => ⟨.nil, holds, part₂⟩
  | otherStmts lowers₁ =>
    exact (levels_cons lowers₁.le le lowers₁.levels inside).imp fun level h =>
      h.imp fun ⟨part₁, holds⟩ => ⟨part₁, holds, .nil⟩
  | firstGroup lowers₂ =>
    exact levels_group le lowers₂.le inside lowers₂.levels
  | otherGroups lowers₁ =>
    exact (levels_group lowers₁.le le lowers₁.levels inside).imp fun level h =>
      h.imp fun ⟨binds, part₁, holds⟩ => ⟨binds.append part₁, holds, .nil⟩

/-- A piece is lowered as soon as all that stands in it is. -/
theorem Within.lowers (h : Within inner before after whole)
    (lowers : Lowers inner.piece inner.start cs inner.final) :
    Lowers whole.piece whole.start (before ++ (cs ++ after)) whole.final := by
  induction h with
  | self => simpa using lowers
  | part step _ ih => simpa using step.lowers ih

/-- The calls around the code of a piece start and end with an empty stack. -/
theorem Within.levels (h : Within inner before after whole)
    (lowers : Lowers inner.piece inner.start cs inner.final) :
    Levels whole.start.labels whole.final.labels (whole.piece.Clears whole.start whole.final fun level =>
      Moves level 0 before 0 ∧ Moves level 0 cs 0 ∧ Moves level 0 after 0) := by
  induction h with
  | self => exact lowers.levels.imp fun level h => h.imp fun code => ⟨.nil, code, .nil⟩
  | part step within ih =>
    refine (step.levels (within.lowers lowers).le ih).imp fun level h =>
      h.imp fun ⟨outer, ⟨inner, code, inner'⟩, outer'⟩ => ?_
    exact ⟨outer.append inner, code, inner'.append outer'⟩

/-- The code of a statement stands in the calls that lower a piece. -/
def Holds (t : Stmt) (cs : List Call) (whole : Stretch) : Prop :=
  ∃ s s' before code after, Within ⟨.stmt t, s, s'⟩ before after whole ∧ Lowers (.stmt t) s code s' ∧
    cs = before ++ (code ++ after)

namespace Holds

variable {t : Stmt} {s s' : LowerState} {cs' : List Call}

theorem self (h : Lowers (.stmt t) s cs s') : Holds t cs ⟨.stmt t, s, s'⟩ :=
  ⟨s, s', [], cs, [], .self, h, (List.append_nil cs).symm⟩

theorem part (h : Holds t cs inner) (step : Part inner before after whole)
    (split : cs' = before ++ (cs ++ after)) : Holds t cs' whole := by
  obtain ⟨s, s', before', code, after', within, lowers, rfl⟩ := h
  exact ⟨s, s', _, code, _, .part step within, lowers, by simpa using split⟩

end Holds

/-- The statements of a piece, each with the constructs around it. -/
def Piece.placed (around : JumpScope) : Piece → List (JumpScope × Stmt)
  | .stmt s | .option (some s) => s.placed around
  | .all ss => Stmt.allPlaced around ss
  | .option none => []
  | .groups _ gs => Stmt.groupsPlaced around gs

theorem Stmt.mem_placed_forLoop {line : Line} {target : Target} {init update : List Stmt} {c : Option Expr}
    {body : Option Stmt} {around : JumpScope} {entry : JumpScope × Stmt} :
    entry ∈ (forLoop line target init c update body).placed around ↔
      entry ∈ allPlaced around init ∨ entry = (around, .forLoop line target init c update body) ∨
        entry ∈ allPlaced (⟨.loop, target⟩ :: around) update ∨
        entry ∈ (Piece.option body).placed (⟨.loop, target⟩ :: around) := by
  cases body with
  | none => simp [placed, Piece.placed]
  | some body => simp [placed, Piece.placed]

/-- The code of every statement of a piece stands in that of the piece. -/
theorem Lowers.holds {piece : Piece} {s s' : LowerState} (h : Lowers piece s cs s') {around around' : JumpScope}
    {t : Stmt} (mem : (around', t) ∈ piece.placed around) : Holds t cs ⟨piece, s, s'⟩ := by
  have whole := h
  induction h generalizing around with
  | declare | define | expr | strayBreak | breakOut | strayContinue | continueLoop | continueSwitch | ret
  | retValue | empty =>
    cases List.mem_singleton.1 mem
    exact .self whole
  | block lowers ih =>
    rcases List.mem_cons.1 mem with same | mem
    · cases same
      exact .self whole
    · exact (ih mem lowers).part .block (by simp)
  | ifThen emits lowers ih =>
    rcases List.mem_cons.1 mem with same | mem
    · cases same
      exact .self whole
    · exact (ih mem lowers).part (.ifThen emits) rfl
  | ifElse emits lowers₁ lowers₂ ih₁ ih₂ =>
    rcases List.mem_cons.1 mem with same | mem
    · cases same
      exact .self whole
    · rcases List.mem_append.1 mem with mem | mem
      · exact (ih₁ mem lowers₁).part (.thenPart emits lowers₂) rfl
      · exact (ih₂ mem lowers₂).part (.elsePart emits lowers₁) (by simp)
  | whileDo emits lowers ih =>
    rcases List.mem_cons.1 mem with same | mem
    · cases same
      exact .self whole
    · exact (ih mem lowers).part (.whileDo emits) rfl
  | doWhile lowers emits ih =>
    rcases List.mem_cons.1 mem with same | mem
    · cases same
      exact .self whole
    · exact (ih mem lowers).part (.doWhile emits) rfl
  | forLoop lowers₀ lowers₁ lowers₂ emits ih₀ ih₁ ih₂ =>
    rcases Stmt.mem_placed_forLoop.1 mem with mem | same | mem | mem
    · exact (ih₀ mem lowers₀).part (.forInit lowers₁ lowers₂ emits) rfl
    · cases same
      exact .self whole
    · exact (ih₂ mem lowers₂).part (.forUpdate lowers₀ lowers₁ emits) (by simp)
    · exact (ih₁ mem lowers₁).part (.forBody lowers₀ lowers₂ emits) (by simp)
  | switch emits plans lowers ih =>
    rcases List.mem_cons.1 mem with same | mem
    · cases same
      exact .self whole
    · exact (ih mem lowers).part (.switch emits plans) (by simp)
  | nil | absent | noGroups => exact absurd mem List.not_mem_nil
  | cons lowers₁ lowers₂ ih₁ ih₂ =>
    rcases List.mem_append.1 mem with mem | mem
    · exact (ih₁ mem lowers₁).part (.firstStmt lowers₂) rfl
    · exact (ih₂ mem lowers₂).part (.otherStmts lowers₁) (by simp)
  | present lowers ih => exact (ih mem lowers).part .present (by simp)
  | group lowers₁ lowers₂ ih₁ ih₂ =>
    rcases List.mem_append.1 mem with mem | mem
    · exact (ih₁ mem lowers₁).part (.firstGroup lowers₂) rfl
    · exact (ih₂ mem lowers₂).part (.otherGroups lowers₁) (by simp)

end Stacklet.Typed
