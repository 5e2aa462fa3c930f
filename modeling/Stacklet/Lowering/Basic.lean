import Stacklet.Assembly.Call
import Stacklet.Typed.Basic

/-!
# Lowering

Lowering turns a typed tree into assembly calls. A lowering step makes calls in order, may make new
labels, may register a loop or switch for the jumps inside it, and may fail; the calls made before it
fails are kept.
-/

namespace Stacklet

/-- A reason why a typed tree cannot be lowered. A tree that passed the check gives none, unless
something in it was declared with the type `any`. -/
inductive LowerError where
  | failedCheck (line : Line)
  | notNumeric (line : Line) (ty : Ty)
  | badStep (op : StepOp) (ty : Ty)
  | unregistered (target : Target)
deriving DecidableEq

/-- The wording of an error. -/
def LowerError.message : LowerError → String
  | .failedCheck line =>
    "cannot lower an expression that failed checking (line " ++ toString line.toNat ++ ")"
  | .notNumeric line ty =>
    "expected a numeric expression at line " ++ toString line.toNat ++ ", found " ++ ty.name
  | .badStep op ty => op.symbol ++ " on non-numeric type " ++ ty.name
  | .unregistered target =>
    "jump to construct #" ++ toString target ++ " before it was lowered"

/-- Where the jumps out of a construct lead. A switch cannot be repeated. -/
structure Exits where
  breakLabel : Label
  continueLabel : Option Label
deriving DecidableEq

/-- What lowering keeps track of: the number of labels made, and the constructs registered, the last
one first. -/
structure LowerState where
  labels : Nat
  targets : List (Target × Exits)

/-- What a lowering step leaves behind. -/
structure Lowered (α : Type) where
  calls : List Call
  state : LowerState
  result : Except LowerError α

/-- A lowering step. -/
def Lower (α : Type) : Type := LowerState → Lowered α

namespace Lower

instance : Monad Lower where
  pure a := fun s => ⟨[], s, .ok a⟩
  bind x f := fun s =>
    let first := x s
    match first.result with
    | .error e => ⟨first.calls, first.state, .error e⟩
    | .ok a =>
      let second := f a first.state
      ⟨first.calls ++ second.calls, second.state, second.result⟩

/-- Runs a step from the start. -/
def run {α : Type} (x : Lower α) : Lowered α := x ⟨0, []⟩

/-- Makes a call that makes no label. -/
def emit (call : Call) : Lower Unit := fun s => ⟨[call], s, .ok ()⟩

/-- Adds an instruction. -/
def add (instr : Instr) : Lower Unit := emit (.add instr)

/-- Makes a label. -/
def label : Lower Label := fun s => ⟨[.makeLabel], { s with labels := s.labels + 1 }, .ok ⟨s.labels⟩⟩

/-- Binds a label here. -/
def place (l : Label) : Lower Unit := emit (.bind l)

/-- Binds labels here. -/
def placeAll : List Label → Lower Unit
  | [] => return ()
  | l :: rest => do
    place l
    placeAll rest

/-- Jumps to a label. -/
def goto (l : Label) : Lower Unit := emit (.jump .goto l)

/-- Fails. -/
def fail {α : Type} (e : LowerError) : Lower α := fun s => ⟨[], s, .error e⟩

/-- Registers a construct; of two with one number the later one counts. -/
def register (target : Target) (exits : Exits) : Lower Unit := fun s =>
  ⟨[], { s with targets := (target, exits) :: s.targets }, .ok ()⟩

/-- The exits of a registered construct. -/
def exits (target : Target) : Lower Exits := fun s =>
  match s.targets.lookup target with
  | some e => ⟨[], s, .ok e⟩
  | none => ⟨[], s, .error (.unregistered target)⟩

end Lower

end Stacklet
