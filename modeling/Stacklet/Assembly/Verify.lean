import Stacklet.Code.Instr

/-!
# Verifying the depth of the stack

Code keeps stack discipline when each of its instructions is always reached with the same number of
values on the stack, never takes more than there are, and never leads outside the code. `verify`
follows all paths from the first instruction on. It visits each instruction at most once: an
instruction joins the work to be done only when its depth is first found.
-/

namespace Stacklet

/-- A way in which code breaks stack discipline. -/
inductive VerifyError where
  | underflow (pc : Nat) (instr : Instr) (depth : Nat)
  | outside (pc : Nat) (target : Int)
  | fallsOff (pc : Nat)
  | inconsistent (pc seen found : Nat)
  | tooDeep

/-- The wording of a verification error. -/
def VerifyError.message : VerifyError → String
  | .underflow pc instr depth =>
    "stack underflow at " ++ toString pc ++ ": " ++ instr.text none ++ " needs "
      ++ toString instr.pops ++ " value(s), found " ++ toString depth
  | .outside pc target =>
    "branch at " ++ toString pc ++ " targets " ++ toString target ++ " outside the code"
  | .fallsOff pc => "control falls off the end after " ++ toString pc
  | .inconsistent pc seen found =>
    "inconsistent stack depth at " ++ toString pc ++ ": " ++ toString seen ++ " vs " ++ toString found
  | .tooDeep => "stack depth exceeds u16: number too large to fit in target type"

namespace Verify

/-- The position to which an offset leads, if it lies in the code. -/
def target (size pc : Nat) (offset : Int32) : Except VerifyError (Fin size) :=
  let t := pc + offset.toInt
  if h : 0 ≤ t ∧ t < size then .ok ⟨t.toNat, by omega⟩ else .error (.outside pc t)

/-- The positions to which control may go from an instruction: by its jumps, then by falling
through. -/
def successors (size pc : Nat) (instr : Instr) : Except VerifyError (List (Fin size)) := do
  let targets ← instr.offsets.mapM (target size pc)
  if instr.fallsThrough then
    if h : pc + 1 < size then return targets ++ [⟨pc + 1, h⟩] else .error (.fallsOff pc)
  else return targets

/-- How far verification has come: the depths found, the instructions still to be visited, and the
greatest depth so far. -/
structure Sweep (size : Nat) where
  depths : Vector (Option Nat) size
  work : List (Fin size)
  peak : Nat

namespace Sweep

/-- The number of visits that may still come. -/
def pending {size : Nat} (s : Sweep size) : Nat :=
  s.depths.countP Option.isNone + s.work.length

/-- Notes the depth with which an instruction is reached. -/
def note {size : Nat} (depth : Nat) (s : Sweep size) (pc : Fin size) :
    Except VerifyError (Sweep size) :=
  match s.depths[pc] with
  | none => .ok { s with depths := s.depths.set pc (some depth), work := pc :: s.work }
  | some seen => if seen = depth then .ok s else .error (.inconsistent pc seen depth)

theorem pending_note {size depth : Nat} {s t : Sweep size} {pc : Fin size}
    (h : s.note depth pc = .ok t) : t.pending = s.pending := by
  unfold note at h
  split at h
  · next hn =>
    cases h
    have hn' : s.depths[pc.val] = none := hn
    have hc : 0 < s.depths.countP Option.isNone := by
      rw [Vector.countP_pos_iff]
      exact ⟨none, hn' ▸ Vector.getElem_mem pc.isLt, rfl⟩
    simp only [pending, Vector.countP_set, hn', List.length_cons]
    simp
    omega
  · split at h
    · cases h; rfl
    · cases h

theorem pending_notes {size depth : Nat} {s t : Sweep size} {pcs : List (Fin size)}
    (h : pcs.foldlM (note depth) s = .ok t) : t.pending = s.pending := by
  induction pcs generalizing s with
  | nil => cases h; rfl
  | cons pc pcs ih =>
    rw [List.foldlM_cons] at h
    cases hn : s.note depth pc with
    | error e => rw [hn] at h; cases h
    | ok u => rw [hn] at h; exact (ih h).trans (pending_note hn)

end Sweep

/-- Visits the instructions that are still to be visited, and gives the greatest depth. -/
def sweep (instrs : Array Instr) (s : Sweep instrs.size) : Except VerifyError Nat :=
  match hw : s.work with
  | [] => .ok s.peak
  | pc :: work =>
    let instr := instrs[pc]
    let depth := s.depths[pc].getD 0
    if depth < instr.pops then .error (.underflow pc instr depth)
    else
      let after := depth - instr.pops + instr.pushes
      match successors instrs.size pc instr with
      | .error e => .error e
      | .ok nexts =>
        let popped : Sweep instrs.size := ⟨s.depths, work, max s.peak (max depth after)⟩
        match hn : nexts.foldlM (Sweep.note after) popped with
        | .error e => .error e
        | .ok t => sweep instrs t
termination_by s.pending
decreasing_by
  rw [Sweep.pending_notes hn]
  simp only [popped, Sweep.pending, hw, List.length_cons]
  omega

/-- The greatest depth of the stack on all paths from the first instruction on. -/
def peak (instrs : Array Instr) : Except VerifyError Nat :=
  if h : 0 < instrs.size then
    sweep instrs ⟨(Vector.replicate instrs.size none).set 0 (some 0), [⟨0, h⟩], 0⟩
  else .ok 0

end Verify

/-- Verifies that code keeps stack discipline, and gives the greatest depth of the stack. -/
def verify (instrs : Array Instr) : Except VerifyError UInt16 := do
  let peak ← Verify.peak instrs
  if peak < 65536 then return UInt16.ofNat peak else .error .tooDeep

end Stacklet
