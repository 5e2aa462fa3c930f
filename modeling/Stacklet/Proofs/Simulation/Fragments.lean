import Mathlib.Logic.Relation
import Stacklet.Lowering.Basic
import Stacklet.Proofs.Assembly.Linking
import Stacklet.Proofs.Simulation.Meets

/-!
# Fragments of code

A fragment is the code that a step of lowering makes, wherever it stands in assembled code. Executing it means
to go on from its start, by its own instructions only, to where control leaves it (`Fragment.Ends`) or to one
of its instructions that fails (`Fragment.FailsWith`). Where a fragment is left is determined, and one that is
left does not fail. What comes before it and after it has no part in this: runs are the same when all other
instructions return (`Code.only`).
-/

namespace Stacklet

open Relation (ReflTransGen)

/-! ## Runs in a range of the code -/

namespace Code

/-- From one position and frame control comes to another by instructions in a range of the code. -/
inductive Within (code : Code) (lo hi : Nat) : Nat → Frame → Nat → Frame → Prop
  | refl (pc : Nat) (f : Frame) : Within code lo hi pc f pc f
  | step {pc pc₁ pc' : Nat} {f f₁ f' : Frame} : lo ≤ pc → pc < hi →
      code.advance pc f = .ok (.running pc₁ f₁) → Within code lo hi pc₁ f₁ pc' f' → Within code lo hi pc f pc' f'

/-- Of two runs in a range from one start one goes on where the other ends. -/
theorem Within.total {code : Code} {lo hi pc pc₁ pc₂ : Nat} {f f₁ f₂ : Frame}
    (h : code.Within lo hi pc f pc₁ f₁) (h' : code.Within lo hi pc f pc₂ f₂) :
    code.Within lo hi pc₁ f₁ pc₂ f₂ ∨ code.Within lo hi pc₂ f₂ pc₁ f₁ := by
  induction h with
  | refl => exact .inl h'
  | step le lt goes rest ih =>
    cases h' with
    | refl => exact .inr (.step le lt goes rest)
    | step _ _ goes' rest' =>
      rw [goes] at goes'
      cases goes'
      exact ih rest'

/-- The code with returns in place of all instructions out of a range. -/
def only (code : Code) (lo hi : Nat) : Code :=
  { code with instrs := code.instrs.mapIdx fun k i => if lo ≤ k ∧ k < hi then i else .ret }

variable {code : Code} {lo hi pc : Nat} {f : Frame} {p p' : Point}

theorem getElem?_only (inside : lo ≤ pc ∧ pc < hi) : (code.only lo hi).instrs[pc]? = code.instrs[pc]? := by
  rw [only, Array.getElem?_mapIdx]
  cases code.instrs[pc]? with
  | none => rfl
  | some i => rw [Option.map_some, if_pos inside]

/-- An instruction that goes on or fails stands in the range. -/
theorem advance_of_only {r : Except RunError Progress} (h : (code.only lo hi).advance pc f = r)
    (goes : (∃ pc' f', r = .ok (.running pc' f')) ∨ ∃ fault, r = .error (.fault fault)) :
    (lo ≤ pc ∧ pc < hi) ∧ code.advance pc f = r := by
  unfold advance at h
  by_cases inside : lo ≤ pc ∧ pc < hi
  · refine ⟨inside, ?_⟩
    rw [getElem?_only inside, show (code.only lo hi).instrs.size = code.instrs.size from Array.size_mapIdx] at h
    exact h
  · -- Out of the range there is no instruction, or a return.
    rw [only, Array.getElem?_mapIdx] at h
    cases at_pc : code.instrs[pc]? with
    | none =>
      rw [at_pc] at h
      rcases goes with ⟨pc', f', rfl⟩ | ⟨fault, rfl⟩ <;> cases h
    | some i =>
      rw [at_pc, Option.map_some, if_neg inside] at h
      rcases goes with ⟨pc', f', rfl⟩ | ⟨fault, rfl⟩ <;> cases h

theorem within_of_only (h : ReflTransGen (code.only lo hi).Leads p p') (peak : Nat) :
    ∃ peak', code.Within lo hi p.pc (p.frame peak) p'.pc (p'.frame peak') := by
  induction h using ReflTransGen.head_induction_on generalizing peak with
  | refl => exact ⟨peak, .refl _ _⟩
  | head leads _ ih =>
    obtain ⟨peak₁, goes⟩ := leads peak
    obtain ⟨⟨le, lt⟩, goes⟩ := advance_of_only goes (.inl ⟨_, _, rfl⟩)
    obtain ⟨peak', steps⟩ := ih peak₁
    exact ⟨peak', .step le lt goes steps⟩

end Code

/-! ## Results of runs -/

/-- From a point on the machine comes to where the results of a computation are, or fails as it does. -/
def Code.Settles (code : Code) (post : Value → Store → Point → Prop) (p : Point) :
    Except Fault (Value × Store) → Prop
  | .ok (v, σ) => ∃ p', ReflTransGen code.Leads p p' ∧ post v σ p'
  | .error fault => ∃ p', ReflTransGen code.Leads p p' ∧ code.Fails p' fault

theorem Code.settles_backward {code : Code} {ok : Store → Prop} (post : Value → Store → Point → Prop) :
    code.Backward ok some fun _ => code.Settles post where
  mono h _ := h
  step {_ _ _ _ r} _ leads rest _ := by
    cases r with
    | ok result =>
      obtain ⟨p'', steps, holds⟩ := rest
      exact ⟨p'', .head leads steps, holds⟩
    | error fault =>
      obtain ⟨p'', steps, fails⟩ := rest
      exact ⟨p'', .head leads steps, fails⟩
  fails _ same fails := by
    cases same
    exact ⟨_, .refl, fails⟩

/-! ## Fragments -/

/-- The code that a step of lowering makes, in any state and among any other calls that assemble. -/
structure Fragment (x : Lower Unit) where
  state : LowerState
  before : List Call
  after : List Call
  options : AssemblyOptions
  name : String
  maxLocals : UInt16
  fields : List FieldDecl
  code : Code
  assembled : (Assembler.ofCalls (before ++ ((x state).calls ++ after))).finish options name maxLocals fields =
    .ok code

namespace Fragment

variable {x : Lower Unit} (c : Fragment x)

/-- The calls that make the fragment. -/
def own : List Call := (x c.state).calls

/-- All calls that the code was assembled from. -/
def calls : List Call := c.before ++ (c.own ++ c.after)

/-- Where the fragment starts. -/
def start : Nat := codeSize c.before

/-- Where the fragment ends. -/
def stop : Nat := c.start + codeSize c.own

/-- The positions of labels. -/
def position (l : Label) : Nat := (Assembler.ofCalls c.calls).positionOf l

/-- Executing the fragment leads to a position, with a stack and a store. -/
def Ends (f : Frame) (pc : Nat) (stack : Stack) (σ : Store) : Prop :=
  ∃ f', c.code.Within c.start c.stop c.start f pc f' ∧ f'.stack = stack ∧ f'.store = σ

/-- Executing the fragment leads to an instruction of it that fails. -/
def FailsWith (f : Frame) (fault : Fault) : Prop :=
  ∃ pc f', c.code.Within c.start c.stop c.start f pc f' ∧ (c.start ≤ pc ∧ pc < c.stop) ∧
    c.code.advance pc f' = .error (.fault fault)

end Fragment

namespace Fragment

variable {x : Lower Unit} {c : Fragment x} {f : Frame} {pc pc' : Nat} {stack stack' : Stack} {σ σ' : Store}

/-- A fragment is left at one position and with one stack and store only. -/
theorem Ends.unique (h : c.Ends f pc stack σ) (h' : c.Ends f pc' stack' σ') (left : c.stop ≤ pc)
    (left' : c.stop ≤ pc') : pc' = pc ∧ stack' = stack ∧ σ' = σ := by
  obtain ⟨f₁, within, rfl, rfl⟩ := h
  obtain ⟨f₂, within', rfl, rfl⟩ := h'
  rcases within.total within' with rest | rest
  all_goals
    cases rest with
    | refl => exact ⟨rfl, rfl, rfl⟩
    | step _ lt => omega

/-- A fragment that is left does not fail. -/
theorem Ends.not_failsWith (h : c.Ends f pc stack σ) (left : c.stop ≤ pc) (fault : Fault) :
    ¬ c.FailsWith f fault := by
  rintro ⟨pc', f₂, within', ⟨-, inside⟩, fails⟩
  obtain ⟨f₁, within, -⟩ := h
  rcases within.total within' with rest | rest
  · cases rest with
    | refl => omega
    | step _ lt => omega
  · cases rest with
    | refl => omega
    | step _ _ goes =>
      rw [fails] at goes
      cases goes

end Fragment

/-- A step of lowering makes a fragment of any calls with which it assembles. -/
theorem Fragment.nonempty_of_assembles {x : Lower Unit} (state : LowerState) (before after : List Call)
    (options : AssemblyOptions) (name : String) (maxLocals : UInt16) (fields : List FieldDecl)
    (h : ((Assembler.ofCalls (before ++ ((x state).calls ++ after))).finish options name maxLocals fields).toBool) :
    Nonempty (Fragment x) := by
  cases finished : (Assembler.ofCalls (before ++ ((x state).calls ++ after))).finish options name maxLocals
      fields with
  | error e => rw [finished] at h; cases h
  | ok code => exact ⟨⟨state, before, after, options, name, maxLocals, fields, code, finished⟩⟩

/-- What calls have become does not depend on other instructions. -/
theorem Placed.congr {instrs instrs' : Array Instr} {position : Label → Nat} {pc : Nat} {cs : List Call}
    (h : Placed instrs position pc cs)
    (same : ∀ k, pc ≤ k ∧ k < pc + codeSize cs → instrs'[k]? = instrs[k]?) :
    Placed instrs' position pc cs := by
  induction cs generalizing pc with
  | nil => trivial
  | cons call cs ih =>
    refine ⟨?_, ih h.2 fun k within => same k ?_⟩
    · cases call with
      | makeLabel | bind => exact h.1
      | add | inc | jump | switch =>
        unfold Call.Stands
        rw [same pc ⟨Nat.le_refl pc, by rw [codeSize_cons, Call.width]; omega⟩]
        exact h.1
    · rw [codeSize_cons]
      omega

namespace Fragment

variable {x : Lower Unit} (c : Fragment x)

/-- The fragment stands in its code, and in what is left of it without all other instructions. -/
theorem placed : Placed (c.code.only c.start c.stop).instrs c.position c.start c.own := by
  have placed := (placed_append.1 (placed_append.1 (Assembler.finish_placed c.assembled).1).2).1
  rw [Nat.zero_add] at placed
  exact placed.congr fun k inside => Code.getElem?_only inside

/-- A label that the fragment jumps to is bound at one position, the one that it stands for. -/
theorem boundAt_iff_of_jump {j : Jump} {l : Label} (mem : .jump j l ∈ c.own) (pos : Nat) :
    BoundAt c.calls l pos ↔ pos = c.position l := by
  obtain ⟨before, after, own⟩ := List.append_of_mem mem
  have split : c.calls = (c.before ++ before) ++ .jump j l :: (after ++ c.after) := by
    rw [calls, own, List.append_assoc, List.append_assoc, List.cons_append]
  obtain ⟨assembled, -⟩ := Assembler.finish_eq_ok_iff.1 c.assembled
  obtain ⟨binds, refers, -⟩ := Assembler.instrs_eq_ok_iff_linked.1 assembled
  obtain ⟨pos', leads⟩ := refers _ _ _ split l rfl
  have bound := (Assembler.tracks_ofCalls c.calls).bound binds l
  rw [position, Assembler.positionOf, ← bound, (bound pos').2 leads.bound]
  exact ⟨fun same => (Option.some.inj (Option.some.inj same)).symm, fun same => congrArg (some ∘ some) same.symm⟩

variable {c}

/-- The point at the start of the fragment with a frame. -/
def entry (c : Fragment x) (f : Frame) : Point := ⟨c.start, f.stack.items, f.store⟩

theorem frame_entry (f : Frame) : (c.entry f).frame f.maxDepth = f := by
  have same : (⟨f.stack.items, f.stack.items.length, rfl⟩ : Stack) = f.stack := Stack.ext rfl
  rw [Point.frame, Store.frame, entry, same]
  rfl

/-- Executing a fragment comes to where the results of a computation are, or fails as it does. -/
def Settles (c : Fragment x) (f : Frame) (post : Value → Store → Point → Prop) : Except Fault (Value × Store) → Prop
  | .ok (v, σ) => ∃ p, post v σ p ∧ ∀ stack : Stack, stack.items = p.stack → c.Ends f p.pc stack p.store
  | .error fault => c.FailsWith f fault

theorem settles_of_only {post : Value → Store → Point → Prop} {f : Frame} {r : Except Fault (Value × Store)}
    (h : (c.code.only c.start c.stop).Settles post (c.entry f) r) : c.Settles f post r := by
  cases r with
  | ok result =>
    obtain ⟨p, steps, holds⟩ := h
    obtain ⟨peak, within⟩ := Code.within_of_only steps f.maxDepth
    rw [frame_entry] at within
    exact ⟨p, holds, fun stack items => ⟨_, within, Stack.ext items.symm, rfl⟩⟩
  | error fault =>
    obtain ⟨p, steps, fails⟩ := h
    obtain ⟨peak, within⟩ := Code.within_of_only steps f.maxDepth
    rw [frame_entry] at within
    obtain ⟨inside, failed⟩ := Code.advance_of_only (fails peak) (.inr ⟨fault, rfl⟩)
    exact ⟨_, _, within, inside, failed⟩

end Fragment

end Stacklet
