import Stacklet.Proofs.Typing.Limit
import Stacklet.Proofs.Typing.Subjects

/-!
# Where jumps lead

A typed tree says of every statement in it which constructs are around it (`placed`). In the tree that the
check makes of a program, with mistakes or without, the constructs have numbers of their own, every `break`
leaves the innermost construct around it and every `continue` repeats the innermost loop. Those that have no
such construct are reported, one by one (`check_jumps`).
-/

namespace Stacklet

namespace Typed

namespace Stmt

mutual

/-- The statements of a tree, each with the constructs around it, the innermost first. The initial
statements of a `for` are outside of it and stand before it. -/
def placed (around : JumpScope) : Stmt → List (JumpScope × Stmt)
  | .block line body => (around, .block line body) :: allPlaced around body
  | .declare line var init => [(around, .declare line var init)]
  | .expr line e => [(around, .expr line e)]
  | .ifElse line c t none => (around, .ifElse line c t none) :: t.placed around
  | .ifElse line c t (some e) => (around, .ifElse line c t (some e)) :: (t.placed around ++ e.placed around)
  | .whileDo line target c body =>
    (around, .whileDo line target c body) :: body.placed (⟨.loop, target⟩ :: around)
  | .doWhile line target body c =>
    (around, .doWhile line target body c) :: body.placed (⟨.loop, target⟩ :: around)
  | .forLoop line target init c update none =>
    allPlaced around init ++
      (around, .forLoop line target init c update none) :: allPlaced (⟨.loop, target⟩ :: around) update
  | .forLoop line target init c update (some body) =>
    allPlaced around init ++
      (around, .forLoop line target init c update (some body)) ::
        (allPlaced (⟨.loop, target⟩ :: around) update ++ body.placed (⟨.loop, target⟩ :: around))
  | .switch line target d groups =>
    (around, .switch line target d groups) :: groupsPlaced (⟨.switch, target⟩ :: around) groups
  | .breakOut line target => [(around, .breakOut line target)]
  | .continueLoop line target => [(around, .continueLoop line target)]
  | .ret line value => [(around, .ret line value)]
  | .empty line => [(around, .empty line)]

/-- The statements of trees in order. -/
def allPlaced (around : JumpScope) : List Stmt → List (JumpScope × Stmt)
  | [] => []
  | s :: rest => s.placed around ++ allPlaced around rest

/-- The statements in the groups of a switch. -/
def groupsPlaced (around : JumpScope) : List (SwitchGroup CaseLabel Stmt) → List (JumpScope × Stmt)
  | [] => []
  | ⟨_, stmts⟩ :: rest => allPlaced around stmts ++ groupsPlaced around rest

end

/-- The number of a loop or switch. -/
def target? : Stmt → Option Target
  | .whileDo _ target _ _ | .doWhile _ target _ _ | .forLoop _ target _ _ _ _ | .switch _ target _ _ => some target
  | .block .. | .declare .. | .expr .. | .ifElse .. | .breakOut .. | .continueLoop .. | .ret .. | .empty _ => none

/-- Whether a statement is a jump. -/
def isJump : Stmt → Bool
  | .breakOut .. | .continueLoop .. => true
  | _ => false

/-- Whether a statement is a `break` that leaves nothing. -/
def isStrayBreak : Stmt → Bool
  | .breakOut _ target => target.isNone
  | _ => false

/-- Whether a statement is a `continue` that repeats nothing. -/
def isStrayContinue : Stmt → Bool
  | .continueLoop _ target => target.isNone
  | _ => false

end Stmt

namespace Program

/-- The statements of a program, each with the constructs around it. -/
def placed (p : Program) : List (JumpScope × Stmt) := Stmt.allPlaced [] p.body

/-- The numbers of the loops and switches of a program. -/
def targets (p : Program) : List Target := p.placed.filterMap (·.2.target?)

end Program

end Typed

namespace JumpScope

/-- What a `break` inside constructs has to leave: the innermost one, and nothing only if there is none. -/
def Leaves (around : JumpScope) : Option Target → Prop
  | none => around = []
  | some target => ∃ construct outer, around = ⟨construct, target⟩ :: outer

/-- What a `continue` inside constructs has to repeat: the innermost loop, and nothing only if there is
none. -/
def Repeats (around : JumpScope) : Option Target → Prop
  | none => ∀ e ∈ around, e.construct = .switch
  | some target => ∃ inner outer, around = inner ++ ⟨.loop, target⟩ :: outer ∧ ∀ e ∈ inner, e.construct = .switch

theorem leaves_breakTarget? (around : JumpScope) : around.Leaves around.breakTarget? := by
  cases around with
  | nil => rfl
  | cons e outer => exact ⟨e.construct, outer, rfl⟩

theorem repeats_continueTarget? (around : JumpScope) : around.Repeats around.continueTarget? := by
  induction around with
  | nil => exact fun e mem => absurd mem List.not_mem_nil
  | cons e outer ih =>
    obtain ⟨construct, target⟩ := e
    cases construct with
    | loop => exact ⟨[], outer, rfl, fun e mem => absurd mem List.not_mem_nil⟩
    | switch =>
      -- A switch is passed over, so that the loop is the one found outside of it.
      change Repeats (⟨.switch, target⟩ :: outer) (continueTarget? outer)
      cases found : continueTarget? outer with
      | none =>
        rw [found] at ih
        intro e mem
        rcases List.mem_cons.1 mem with rfl | mem
        · rfl
        · exact ih e mem
      | some repeated =>
        rw [found] at ih
        obtain ⟨inner, outer', rfl, switches⟩ := ih
        refine ⟨⟨.switch, target⟩ :: inner, outer', rfl, fun e mem => ?_⟩
        rcases List.mem_cons.1 mem with rfl | mem
        · rfl
        · exact switches e mem

end JumpScope

open Typed (Stmt)

/-- What the check does about jumps in statements: it numbers their constructs one after the other, resolves
their jumps, and reports those that it cannot resolve. -/
structure Aimed (first next : Nat) (placed : List (JumpScope × Stmt)) (ds : List Diagnostic) : Prop where
  order : first ≤ next
  numbers : placed.filterMap (·.2.target?) = List.range' first (next - first)
  breaks : ∀ {around line target}, (around, .breakOut line target) ∈ placed → around.Leaves target
  continues : ∀ {around line target}, (around, .continueLoop line target) ∈ placed → around.Repeats target
  strayBreaks : ds.countP (·.kind == .misplacedBreak) = placed.countP (·.2.isStrayBreak)
  strayContinues : ds.countP (·.kind == .misplacedContinue) = placed.countP (·.2.isStrayContinue)

namespace Aimed

variable {first next next' : Nat} {placed placed' : List (JumpScope × Stmt)} {ds ds' : List Diagnostic}

theorem nil : Aimed first first [] [] where
  order := Nat.le_refl _
  numbers := by rw [Nat.sub_self]; rfl
  breaks mem := absurd mem List.not_mem_nil
  continues mem := absurd mem List.not_mem_nil
  strayBreaks := rfl
  strayContinues := rfl

/-- Statements one after the other. -/
theorem append (h : Aimed first next placed ds) (h' : Aimed next next' placed' ds') :
    Aimed first next' (placed ++ placed') (ds ++ ds') where
  order := Nat.le_trans h.order h'.order
  numbers := by
    have order := h.order
    have order' := h'.order
    rw [List.filterMap_append, h.numbers, h'.numbers, show next' - first = next - first + (next' - next) by omega,
      ← List.range'_append_1, show first + (next - first) = next by omega]
  breaks mem := (List.mem_append.1 mem).elim h.breaks h'.breaks
  continues mem := (List.mem_append.1 mem).elim h.continues h'.continues
  strayBreaks := by rw [List.countP_append, List.countP_append, h.strayBreaks, h'.strayBreaks]
  strayContinues := by rw [List.countP_append, List.countP_append, h.strayContinues, h'.strayContinues]

/-- Reports that are not about jumps. -/
theorem ofReports {subject : Mistake.Subject} (about : AllAbout subject ds) (other : subject ≠ .jump) :
    Aimed first first [] ds where
  order := Nat.le_refl _
  numbers := by rw [Nat.sub_self]; rfl
  breaks mem := absurd mem List.not_mem_nil
  continues mem := absurd mem List.not_mem_nil
  strayBreaks := by
    rw [List.countP_nil, List.countP_eq_zero]
    intro d mem same
    rw [← about d mem, beq_iff_eq.1 same] at other
    exact other rfl
  strayContinues := by
    rw [List.countP_nil, List.countP_eq_zero]
    intro d mem same
    rw [← about d mem, beq_iff_eq.1 same] at other
    exact other rfl

theorem before (h : Aimed first next placed ds) (about : AllAbout .other ds') :
    Aimed first next placed (ds' ++ ds) :=
  (ofReports about (by decide)).append h

theorem after (h : Aimed first next placed ds) (about : AllAbout .other ds') :
    Aimed first next placed (ds ++ ds') := by
  have both := h.append (ofReports about (by decide))
  rwa [List.append_nil] at both

/-- A statement that is no jump, with the numbers that it takes. -/
theorem ofStmt {s : Stmt} (around : JumpScope) (jump : s.isJump = false) (order : first ≤ next)
    (numbers : s.target?.toList = List.range' first (next - first)) : Aimed first next [(around, s)] [] where
  order := order
  numbers := by
    rw [← numbers]
    cases found : s.target? <;> simp [found]
  breaks mem := by
    cases List.mem_singleton.1 mem
    cases jump
  continues mem := by
    cases List.mem_singleton.1 mem
    cases jump
  strayBreaks := by
    have other : s.isStrayBreak = false := by
      unfold Stmt.isStrayBreak
      split
      · cases jump
      · rfl
    rw [List.countP_singleton, other]
    rfl
  strayContinues := by
    have other : s.isStrayContinue = false := by
      unfold Stmt.isStrayContinue
      split
      · cases jump
      · rfl
    rw [List.countP_singleton, other]
    rfl

/-- A statement that is neither a construct nor a jump. -/
theorem plain {s : Stmt} (around : JumpScope) (jump : s.isJump = false) (construct : s.target? = none) :
    Aimed first first [(around, s)] [] := by
  refine ofStmt around jump (Nat.le_refl _) ?_
  rw [construct, Nat.sub_self]
  rfl

/-- A statement without parts that is no jump. -/
theorem leaf {s : Stmt} (around : JumpScope) (jump : s.isJump = false) (construct : s.target? = none)
    (about : AllAbout .other ds) : Aimed first first [(around, s)] ds :=
  (plain around jump construct).after about

/-- A construct that takes the next number. -/
theorem construct {s : Stmt} (around : JumpScope) (jump : s.isJump = false) (construct : s.target? = some first) :
    Aimed first (first + 1) [(around, s)] [] := by
  refine ofStmt around jump (Nat.le_succ _) ?_
  rw [construct, Nat.add_sub_cancel_left]
  rfl

theorem breakOut (around : JumpScope) (line : Line) :
    Aimed first first [(around, .breakOut line around.breakTarget?)]
      (reportUnless around.breakTarget?.isSome (.strayBreak line)).reports where
  order := Nat.le_refl _
  numbers := by rw [Nat.sub_self]; rfl
  breaks mem := by
    cases List.mem_singleton.1 mem
    exact around.leaves_breakTarget?
  continues mem := by cases List.mem_singleton.1 mem
  strayBreaks := by cases around.breakTarget? <;> rfl
  strayContinues := by cases around.breakTarget? <;> rfl

theorem continueLoop (around : JumpScope) (line : Line) :
    Aimed first first [(around, .continueLoop line around.continueTarget?)]
      (reportUnless around.continueTarget?.isSome (.strayContinue line)).reports where
  order := Nat.le_refl _
  numbers := by rw [Nat.sub_self]; rfl
  breaks mem := by cases List.mem_singleton.1 mem
  continues mem := by
    cases List.mem_singleton.1 mem
    exact around.repeats_continueTarget?
  strayBreaks := by cases around.continueTarget? <;> rfl
  strayContinues := by cases around.continueTarget? <;> rfl

end Aimed

/-- The statements that the check makes of a piece of a program. -/
def CheckedPiece.placed (around : JumpScope) : CheckedPiece → List (JumpScope × Stmt)
  | .stmt _ t => t.placed around
  | .all _ ts => Stmt.allPlaced around ts
  | .groups _ _ _ gs => Stmt.groupsPlaced around gs

open Check in
/-- Whatever the check makes of a piece of a program has its jumps resolved. -/
theorem Checks.aimed {env : Surroundings} {piece : CheckedPiece} {st st' : CheckState} {ds : List Diagnostic}
    (h : Checks env piece st ds st') : Aimed st.nextTarget st'.nextTarget (piece.placed env.jumps) ds := by
  induction h with
  | block _ ih => exact (Aimed.plain _ rfl rfl).append ih
  | declare read => exact .leaf _ rfl rfl (about_optional about_initializer read)
  | redeclare read => exact .leaf _ rfl rfl ((about_optional about_initializer read).append (.single rfl))
  | expr read => exact .leaf _ rfl rfl (.append (.ofUnless _ rfl) (about_expr read))
  | ifThen read _ ih => exact ((Aimed.plain _ rfl rfl).append ih).before (about_condition read)
  | ifElse read _ _ ih ih' => exact ((Aimed.plain _ rfl rfl).append (ih.append ih')).before (about_condition read)
  | whileDo read _ ih => exact ((Aimed.construct _ rfl rfl).append ih).before (about_condition read)
  | doWhile _ read ih => exact ((Aimed.construct _ rfl rfl).append ih).after (about_condition read)
  | forEmpty _ read _ ih ih' =>
    exact ih.append (((Aimed.construct _ rfl rfl).append ih').before (about_optional about_condition read))
  | forLoop _ read _ _ ih ih' ih'' =>
    exact ih.append (((Aimed.construct _ rfl rfl).append (ih'.append ih'')).before
      (about_optional about_condition read))
  | switch read _ ih =>
    exact (((Aimed.construct _ rfl rfl).append ih).before (.ofUnless _ rfl)).before (about_expr read)
  | breakOut => exact .breakOut _ _
  | continueLoop => exact .continueLoop _ _
  | ret read read' => exact .leaf _ rfl rfl ((about_optional about_expr read).append (about_result read'))
  | empty => exact .plain _ rfl rfl
  | nil => exact .nil
  | cons _ _ ih ih' => exact ih.append ih'
  | noGroups => exact .nil
  | group labels _ _ ih ih' =>
    have about := Source.CaseLabel.about_of_checkAll labels
    exact (Aimed.ofReports about (by decide)).append (ih.append ih')

namespace Source.Program

/-- Every jump of a checked program leads to the innermost construct that takes it, and those that have none
are the misplaced ones that are reported. -/
theorem check_jumps (p : Program) (limit : Option Nat) :
    let typed := (p.analyze limit).program
    let unlimited := (p.analyze none).diagnostics
    typed.targets.Nodup ∧
    (∀ target ∈ typed.targets, target < typed.targets.length) ∧
    (∀ around line target, (around, Typed.Stmt.breakOut line target) ∈ typed.placed → around.Leaves target) ∧
    (∀ around line target, (around, Typed.Stmt.continueLoop line target) ∈ typed.placed → around.Repeats target) ∧
    (unlimited.ofKind .misplacedBreak).length = typed.placed.countP (·.2.isStrayBreak) ∧
    (unlimited.ofKind .misplacedContinue).length = typed.placed.countP (·.2.isStrayContinue) := by
  obtain ⟨ds, st, checks, reports, -⟩ := p.check_checks
  have aimed : Aimed 0 st.nextTarget p.check.value.placed p.check.reports := by
    rw [reports]
    exact checks.aimed.before (enterFields_about _ _ _)
  have targets : p.check.value.targets = List.range st.nextTarget := by
    rw [Typed.Program.targets, aimed.numbers, Nat.sub_zero, List.range_eq_range']
  have count (kind : Mistake) : ((p.analyze none).diagnostics.ofKind kind).length =
      p.check.reports.countP (·.kind == kind) := by
    rw [Diagnostics.ofKind, analyze_eq, Diagnostics.recorded_ofReports_none, List.countP_eq_length_filter]
  intro typed unlimited
  have program : typed = p.check.value := program_analyze limit p
  rw [program, targets]
  refine ⟨List.nodup_range, ?_, fun _ _ _ mem => aimed.breaks mem, fun _ _ _ mem => aimed.continues mem,
    (count _).trans aimed.strayBreaks, (count _).trans aimed.strayContinues⟩
  rw [List.length_range]
  exact fun target mem => List.mem_range.1 mem

end Source.Program

/-- A program with a jump in each part of a `for`, in a switch inside of it, and behind it. -/
def detours : Source.Program where
  name := "Detours"
  fields := []
  returns := none
  body := [
    .forLoop 1 [.breakOut 1] none [.continueLoop 2] (some (.switch 3 (.literal 3 (.int 1)) [
      ⟨[.otherwise], [.continueLoop 4, .breakOut 5]⟩])),
    .continueLoop 6]

/-- The `continue` in the switch repeats the `for`. The jumps in front of the `for` and behind it are
reported. -/
theorem detours_jumps :
    let typed := (detours.analyze none).program
    (([⟨.switch, 1⟩, ⟨.loop, 0⟩] : JumpScope), Typed.Stmt.continueLoop 4 (some 0)) ∈ typed.placed ∧
    JumpScope.Repeats [⟨.switch, 1⟩, ⟨.loop, 0⟩] (some 0) ∧
    ((detours.analyze none).diagnostics.ofKind .misplacedBreak).length = typed.placed.countP (·.2.isStrayBreak) ∧
    typed.placed.countP (·.2.isStrayBreak) = 1 ∧
    ((detours.analyze none).diagnostics.ofKind .misplacedContinue).length =
      typed.placed.countP (·.2.isStrayContinue) ∧
    typed.placed.countP (·.2.isStrayContinue) = 1 := by
  obtain ⟨-, -, -, continues, breaks, repeats⟩ := detours.check_jumps none
  have inside : (([⟨.switch, 1⟩, ⟨.loop, 0⟩] : JumpScope), Typed.Stmt.continueLoop 4 (some 0)) ∈
      (detours.analyze none).program.placed := List.mem_of_getElem? (i := 4) rfl
  exact ⟨inside, continues _ _ _ inside, breaks, by decide +kernel, repeats, by decide +kernel⟩

end Stacklet
