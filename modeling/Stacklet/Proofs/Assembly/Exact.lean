import Stacklet.Proofs.Assembly.Alike

/-!
# Verification is exact

Where control may go is a graph on the positions of code. An assignment gives each instruction that can be
reached in it from the first one a depth (`Assigns`), and there is at most one (`Assigns.unique`).
Verification succeeds exactly if there is one whose depths fit into 16 bits, and gives the greatest of
them (`verify_exact`). This ties it to the graph alone: it does not matter in which order instructions are
visited, nor what stands where control cannot come to.
-/

namespace Stacklet

theorem Instr.pushes_le_succ (i : Instr) : i.pushes ≤ i.pops + 1 := by
  cases i <;> simp [Instr.pops, Instr.pushes]

namespace Verify

open Sweep

/-- Control may go from a position to another one, in the code or outside of it. -/
inductive Flows (instrs : Array Instr) (pc : Nat) : Int → Prop
  | jump {i : Instr} {offset : Int32} : instrs[pc]? = some i → offset ∈ i.offsets →
    Flows instrs pc (pc + offset.toInt)
  | next {i : Instr} : instrs[pc]? = some i → i.fallsThrough = true → Flows instrs pc (pc + 1)

/-- The positions in the code to which control may come from the first one. -/
inductive Reachable (instrs : Array Instr) : Nat → Prop
  | entry : 0 < instrs.size → Reachable instrs 0
  | flow {pc next : Nat} : Reachable instrs pc → Flows instrs pc next → next < instrs.size →
    Reachable instrs next

/-- An assignment of depths to the instructions that can be reached. Control stays in the code, starts with
an empty stack, finds all values that an instruction takes, and goes on with those that are left. -/
structure Assigns (instrs : Array Instr) (depth : Nat → Nat) : Prop where
  inside : ∀ {pc : Nat} {next : Int}, Reachable instrs pc → Flows instrs pc next →
    0 ≤ next ∧ next < instrs.size
  entry : depth 0 = 0
  pops : ∀ {pc : Nat} {i : Instr}, Reachable instrs pc → instrs[pc]? = some i → i.pops ≤ depth pc
  flow : ∀ {pc next : Nat} {i : Instr}, Reachable instrs pc → instrs[pc]? = some i →
    Flows instrs pc next → depth next = depth pc - i.pops + i.pushes

/-- The depths with which instructions are reached, and those that they leave. -/
inductive Occurs (instrs : Array Instr) (depth : Nat → Nat) : Nat → Prop
  | before {pc : Nat} : Reachable instrs pc → Occurs instrs depth (depth pc)
  | after {pc : Nat} {i : Instr} : Reachable instrs pc → instrs[pc]? = some i →
    Occurs instrs depth (depth pc - i.pops + i.pushes)

/-- The greatest depth of an assignment, which is 0 for code without instructions. -/
structure IsPeak (instrs : Array Instr) (depth : Nat → Nat) (m : Nat) : Prop where
  bound : ∀ k, Occurs instrs depth k → k ≤ m
  attained : Occurs instrs depth m ∨ instrs.size = 0 ∧ m = 0

variable {instrs : Array Instr}

theorem Reachable.inside {pc : Nat} (h : Reachable instrs pc) : pc < instrs.size := by
  cases h with
  | entry nonempty => exact nonempty
  | flow _ _ inside => exact inside

theorem Reachable.exists_instr {pc : Nat} (h : Reachable instrs pc) : ∃ i, instrs[pc]? = some i :=
  ⟨_, Array.getElem?_eq_getElem h.inside⟩

/-! ## Assignments and consistency -/

namespace Consistent

variable {bound : Nat} {depth : Nat → Option Nat}

/-- A consistent assignment gives a depth to whatever control may go to. -/
theorem flow (consistent : Consistent instrs bound depth) {pc k : Nat} {i : Instr} {next : Int}
    (hk : depth pc = some k) (hi : instrs[pc]? = some i) (flows : Flows instrs pc next) :
    ∃ n : Nat, next = n ∧ depth n = some (k - i.pops + i.pushes) := by
  cases flows with
  | jump hi' ho =>
    obtain rfl := Option.some.inj (hi.symm.trans hi')
    obtain ⟨n, hn, hd⟩ := consistent.jump hk hi ho
    exact ⟨n, hn.symm, hd⟩
  | next hi' falls =>
    obtain rfl := Option.some.inj (hi.symm.trans hi')
    exact ⟨pc + 1, rfl, consistent.next hk hi falls⟩

theorem reached (consistent : Consistent instrs bound depth) {pc : Nat} (h : Reachable instrs pc) :
    ∃ k, depth pc = some k := by
  induction h with
  | entry => exact ⟨0, consistent.entry⟩
  | flow _ flows _ ih =>
    obtain ⟨k, hk⟩ := ih
    obtain ⟨i, hi⟩ := consistent.inside hk
    obtain ⟨n, same, hn⟩ := consistent.flow hk hi flows
    rw [Int.ofNat.inj same]
    exact ⟨_, hn⟩

/-- The depths of a consistent assignment are an assignment to what can be reached. -/
theorem assigns (consistent : Consistent instrs bound depth) :
    Assigns instrs fun pc => (depth pc).getD 0 := by
  constructor
  · intro pc next reachable flows
    obtain ⟨k, hk⟩ := consistent.reached reachable
    obtain ⟨i, hi⟩ := reachable.exists_instr
    obtain ⟨n, rfl, hn⟩ := consistent.flow hk hi flows
    obtain ⟨_, inside⟩ := consistent.inside hn
    have := (Array.getElem?_eq_some_iff.1 inside).1
    omega
  · simp only [consistent.entry, Option.getD_some]
  · intro pc i reachable hi
    obtain ⟨k, hk⟩ := consistent.reached reachable
    simp only [hk, Option.getD_some]
    exact consistent.pops hk hi
  · intro pc next i reachable hi flows
    obtain ⟨k, hk⟩ := consistent.reached reachable
    obtain ⟨n, same, hn⟩ := consistent.flow hk hi flows
    simp only [Int.ofNat.inj same, hn, hk, Option.getD_some]

theorem occurs_le (consistent : Consistent instrs bound depth) {k : Nat}
    (h : Occurs instrs (fun pc => (depth pc).getD 0) k) : k ≤ bound := by
  cases h with
  | before reachable =>
    obtain ⟨k, hk⟩ := consistent.reached reachable
    simp only [hk, Option.getD_some]
    exact consistent.before hk
  | after reachable hi =>
    obtain ⟨k, hk⟩ := consistent.reached reachable
    simp only [hk, Option.getD_some]
    exact consistent.after hk hi

end Consistent

namespace Assigns

variable {depth depth' : Nat → Nat}

/-- What can be reached has at most one assignment. -/
theorem unique (h : Assigns instrs depth) (h' : Assigns instrs depth') {pc : Nat}
    (reachable : Reachable instrs pc) : depth pc = depth' pc := by
  induction reachable with
  | entry => rw [h.entry, h'.entry]
  | flow reachable flows _ ih =>
    obtain ⟨i, hi⟩ := reachable.exists_instr
    rw [h.flow reachable hi flows, h'.flow reachable hi flows, ih]

theorem occurs (h : Assigns instrs depth) (h' : Assigns instrs depth') {k : Nat}
    (occurs : Occurs instrs depth k) : Occurs instrs depth' k := by
  cases occurs with
  | before reachable =>
    rw [h.unique h' reachable]
    exact .before reachable
  | after reachable hi =>
    rw [h.unique h' reachable]
    exact .after reachable hi

open Classical in
/-- An assignment is consistent as far as instructions can be reached. -/
theorem consistent (h : Assigns instrs depth) (nonempty : 0 < instrs.size) {bound : Nat}
    (low : ∀ k, Occurs instrs depth k → k ≤ bound) :
    Consistent instrs bound fun pc => if Reachable instrs pc then some (depth pc) else none := by
  have given {pc k : Nat} (hk : (if Reachable instrs pc then some (depth pc) else none) = some k) :
      Reachable instrs pc ∧ depth pc = k := by
    split at hk
    · next reachable => exact ⟨reachable, Option.some.inj hk⟩
    · cases hk
  have goes {pc : Nat} {i : Instr} {next : Int} (reachable : Reachable instrs pc) (hi : instrs[pc]? = some i)
      (flows : Flows instrs pc next) : ∃ n : Nat, (n : Int) = next ∧
        (if Reachable instrs n then some (depth n) else none) = some (depth pc - i.pops + i.pushes) := by
    obtain ⟨lower, upper⟩ := h.inside reachable flows
    obtain ⟨n, rfl⟩ := Int.eq_ofNat_of_zero_le lower
    refine ⟨n, rfl, ?_⟩
    rw [if_pos (.flow reachable flows (by omega)), h.flow reachable hi flows]
  constructor
  · rw [if_pos (.entry nonempty), h.entry]
  · intro pc k hk
    exact (given hk).1.exists_instr
  · intro pc k i hk hi
    obtain ⟨reachable, rfl⟩ := given hk
    exact h.pops reachable hi
  · intro pc k hk
    obtain ⟨reachable, rfl⟩ := given hk
    exact low _ (.before reachable)
  · intro pc k i hk hi
    obtain ⟨reachable, rfl⟩ := given hk
    exact low _ (.after reachable hi)
  · intro pc k i offset hk hi ho
    obtain ⟨reachable, rfl⟩ := given hk
    exact goes reachable hi (.jump hi ho)
  · intro pc k i hk hi falls
    obtain ⟨reachable, rfl⟩ := given hk
    obtain ⟨n, same, hn⟩ := goes reachable hi (.next hi falls)
    rw [show pc + 1 = n by omega]
    exact hn

end Assigns

/-! ## The order of visits -/

/-- The least bound up to which there is a consistent assignment. -/
structure IsLeastBound (instrs : Array Instr) (m : Nat) : Prop where
  consistent : ∃ depth, Consistent instrs m depth
  least : ∀ {bound : Nat} {depth : Nat → Option Nat}, Consistent instrs bound depth → m ≤ bound

namespace Visits

variable {nonempty : 0 < instrs.size} {order : List (Fin instrs.size)} {s t : Sweep instrs.size}

/-- In whatever order instructions are visited, the depth that is given in the end is the least bound. -/
theorem stops_ok_iff (h : Visits instrs (start instrs nonempty) order t) {r : Except VerifyError Nat}
    (stops : Stops instrs t r) {m : Nat} : r = .ok m ↔ IsLeastBound instrs m := by
  constructor
  · rintro rfl
    cases stops with
    | done none =>
      refine ⟨⟨_, h.consistent none⟩, fun consistent => ?_⟩
      exact (h.stops consistent (.done none)).2.2
  · intro least
    obtain ⟨depth, consistent⟩ := least.consistent
    obtain ⟨none, rfl, low⟩ := h.stops consistent stops
    have least := least.least (h.consistent none)
    rw [Nat.le_antisymm low least]

/-- No instruction is taken from the work twice: those that come to it had no depth before. -/
theorem nodup (h : Visits instrs s order t) (orderly : s.Orderly) :
    order.Nodup ∧ ∀ pc ∈ order, pc ∈ s.work ∨ s.depthAt pc = none := by
  induction h with
  | nil => exact ⟨List.Pairwise.nil, fun pc mem => absurd mem List.not_mem_nil⟩
  | @next s t u pc order mem hv _ ih =>
    obtain ⟨single, fresh⟩ := ih (orderly.step mem hv)
    obtain ⟨gone, added⟩ := orderly.visited mem hv
    obtain ⟨k, hk⟩ := orderly.known mem
    constructor
    · refine List.nodup_cons.2 ⟨fun again => ?_, single⟩
      rcases fresh pc again with again | unseen
      · exact gone again
      · cases unseen.symm.trans (depthAt_of_visit orderly mem hv hk)
    · intro q hq
      rcases List.mem_cons.1 hq with rfl | hq
      · exact .inl mem
      · rcases fresh q hq with waits | unseen
        · exact added q waits
        · refine .inr (Option.eq_none_iff_forall_ne_some.2 fun j hj => ?_)
          cases unseen.symm.trans (depthAt_of_visit orderly mem hv hj)

/-- Each visit raises depths by one at most. -/
theorem low (h : Visits instrs s order t) (orderly : s.Orderly) {bound : Nat} (peak : s.peak ≤ bound)
    (depths : ∀ {pc : Fin instrs.size} {k : Nat}, s.depthAt pc = some k → k ≤ bound) :
    t.peak ≤ bound + order.length := by
  induction h generalizing bound with
  | nil => exact peak
  | @next s t u pc order mem hv _ ih =>
    obtain ⟨k, hk⟩ := orderly.known mem
    obtain ⟨i, -, enough, nexts, -, hn⟩ := visit_eq_ok hk hv
    have noted := noted_of_notes hn
    have here := depths hk
    have after : afterOf i k ≤ bound + 1 := by
      have := i.pushes_le_succ
      rw [afterOf]
      omega
    rw [List.length_cons, Nat.add_comm order.length, ← Nat.add_assoc]
    apply ih (orderly.step mem hv)
    · rw [noted.peak, take]
      simp only
      omega
    · intro q j hq
      rcases noted.fresh hq with hq | ⟨-, rfl, -⟩
      · exact Nat.le_succ_of_le (depths hq)
      · exact after

end Visits

theorem peak_eq_ok_iff (nonempty : 0 < instrs.size) {m : Nat} :
    peak instrs = .ok m ↔ IsLeastBound instrs m := by
  obtain ⟨order, t, visits, stops⟩ := peak_visits nonempty
  exact visits.stops_ok_iff stops

theorem peak_of_empty (empty : instrs.size = 0) : peak instrs = .ok 0 := by
  rw [peak, dif_neg (by omega)]

/-! ## The greatest depth -/

/-- The depth that verification gives is the greatest one of the assignment. -/
theorem isPeak_of_peak {m : Nat} {depth : Nat → Nat} (h : peak instrs = .ok m) (assigns : Assigns instrs depth) :
    IsPeak instrs depth m := by
  by_cases empty : instrs.size = 0
  · rw [peak_of_empty empty] at h
    cases h
    have none {k : Nat} (occurs : Occurs instrs depth k) : False := by
      cases occurs with
      | before reachable | after reachable _ =>
        have := reachable.inside
        omega
    exact ⟨fun k occurs => (none occurs).elim, .inr ⟨empty, rfl⟩⟩
  · have nonempty : 0 < instrs.size := by omega
    have least := (peak_eq_ok_iff nonempty).1 h
    obtain ⟨found, consistent⟩ := least.consistent
    have bound (k : Nat) (occurs : Occurs instrs depth k) : k ≤ m :=
      consistent.occurs_le (assigns.occurs consistent.assigns occurs)
    refine ⟨bound, .inl (Classical.byContradiction fun missed => ?_)⟩
    -- All depths would be lower, and so would be the least bound.
    have first : Occurs instrs depth 0 := by
      have start : Occurs instrs depth (depth 0) := .before (.entry nonempty)
      rwa [assigns.entry] at start
    have positive : m ≠ 0 := by
      rintro rfl
      exact missed first
    have lower (k : Nat) (occurs : Occurs instrs depth k) : k ≤ m - 1 := by
      have le := bound k occurs
      have other : k ≠ m := by
        rintro rfl
        exact missed occurs
      omega
    have := least.least (assigns.consistent nonempty lower)
    omega

/-- Verification finds a depth exactly if there is an assignment. -/
theorem exists_peak_iff : (∃ m, peak instrs = .ok m) ↔
    ∃ depth bound, Assigns instrs depth ∧ ∀ k, Occurs instrs depth k → k ≤ bound := by
  by_cases empty : instrs.size = 0
  · have unreachable {pc : Nat} (h : Reachable instrs pc) : False := by
      have := h.inside
      omega
    refine ⟨fun _ => ⟨fun _ => 0, 0, ?_, ?_⟩, fun _ => ⟨0, peak_of_empty empty⟩⟩
    · exact ⟨fun h => (unreachable h).elim, rfl, fun h => (unreachable h).elim, fun h => (unreachable h).elim⟩
    · intro k occurs
      cases occurs with
      | before reachable | after reachable _ => exact (unreachable reachable).elim
  · have nonempty : 0 < instrs.size := by omega
    constructor
    · rintro ⟨m, h⟩
      obtain ⟨depth, consistent⟩ := exists_consistent nonempty h
      exact ⟨_, m, consistent.assigns, fun k => consistent.occurs_le⟩
    · rintro ⟨depth, bound, assigns, low⟩
      obtain ⟨m, -, h⟩ := peak_eq_ok (assigns.consistent nonempty low)
      exact ⟨m, h⟩

/-! ## What cannot be reached -/

/-- Code of the same size with the same instructions wherever control may come to. -/
structure SameReached (instrs other : Array Instr) : Prop where
  size : other.size = instrs.size
  instr : ∀ {pc : Nat}, Reachable instrs pc → other[pc]? = instrs[pc]?

namespace SameReached

variable {other : Array Instr} {depth : Nat → Nat}

theorem flows_iff (h : SameReached instrs other) {pc : Nat} (reachable : Reachable instrs pc) {next : Int} :
    Flows other pc next ↔ Flows instrs pc next := by
  have same := h.instr reachable
  constructor
  · intro flows
    cases flows with
    | jump hi ho => exact .jump (same ▸ hi) ho
    | next hi falls => exact .next (same ▸ hi) falls
  · intro flows
    cases flows with
    | jump hi ho => exact .jump (same.trans hi) ho
    | next hi falls => exact .next (same.trans hi) falls

theorem reachable_iff (h : SameReached instrs other) {pc : Nat} :
    Reachable other pc ↔ Reachable instrs pc := by
  constructor
  · intro reachable
    induction reachable with
    | entry nonempty => exact .entry (h.size ▸ nonempty)
    | flow _ flows inside ih => exact .flow ih ((h.flows_iff ih).1 flows) (h.size ▸ inside)
  · intro reachable
    induction reachable with
    | entry nonempty => exact .entry (h.size ▸ nonempty)
    | flow reachable flows inside ih => exact .flow ih ((h.flows_iff reachable).2 flows) (h.size ▸ inside)

theorem symm (h : SameReached instrs other) : SameReached other instrs :=
  ⟨h.size.symm, fun reachable => (h.instr (h.reachable_iff.1 reachable)).symm⟩

theorem assigns (h : SameReached instrs other) (assigns : Assigns instrs depth) : Assigns other depth := by
  constructor
  · intro pc next reachable flows
    have reachable := h.reachable_iff.1 reachable
    rw [h.size]
    exact assigns.inside reachable ((h.flows_iff reachable).1 flows)
  · exact assigns.entry
  · intro pc i reachable hi
    have reachable := h.reachable_iff.1 reachable
    exact assigns.pops reachable (h.instr reachable ▸ hi)
  · intro pc next i reachable hi flows
    have reachable := h.reachable_iff.1 reachable
    exact assigns.flow reachable (h.instr reachable ▸ hi) ((h.flows_iff reachable).1 flows)

theorem occurs (h : SameReached instrs other) {k : Nat} (occurs : Occurs instrs depth k) :
    Occurs other depth k := by
  cases occurs with
  | before reachable => exact .before (h.reachable_iff.2 reachable)
  | after reachable hi => exact .after (h.reachable_iff.2 reachable) ((h.instr reachable).trans hi)

theorem isPeak_le (h : SameReached instrs other) {m m' : Nat} (peak : IsPeak instrs depth m)
    (peak' : IsPeak other depth m') : m ≤ m' := by
  rcases peak.attained with occurs | ⟨-, rfl⟩
  · exact peak'.bound m (h.occurs occurs)
  · exact Nat.zero_le m'

/-- Verification does not depend on what cannot be reached. -/
theorem peak_eq_ok (h : SameReached instrs other) {m : Nat} (found : peak instrs = .ok m) :
    peak other = .ok m := by
  obtain ⟨depth, bound, assigns, low⟩ := exists_peak_iff.1 ⟨m, found⟩
  have assigns' := h.assigns assigns
  obtain ⟨m', found'⟩ := exists_peak_iff.2 ⟨depth, bound, assigns', fun k occurs => low k (h.symm.occurs occurs)⟩
  have peak := isPeak_of_peak found assigns
  have peak' := isPeak_of_peak found' assigns'
  rw [found', Nat.le_antisymm (h.symm.isPeak_le peak' peak) (h.isPeak_le peak peak')]

end SameReached

end Verify

open Verify

/-- Verification succeeds exactly if the instructions that can be reached have an assignment of depths that
fit into 16 bits, and gives the greatest of these. It visits instructions in some order, in any order each of
them at most once, and any order gives the same answer. What cannot be reached does not matter. -/
theorem verify_exact (instrs : Array Instr) :
    ((∃ m, verify instrs = .ok m) ↔
      ∃ depth, Assigns instrs depth ∧ ∀ k, Occurs instrs depth k → k ≤ 65535) ∧
    (∀ m depth, verify instrs = .ok m → Assigns instrs depth → IsPeak instrs depth m.toNat) ∧
    (∀ nonempty : 0 < instrs.size,
      (∃ order t, Visits instrs (start instrs nonempty) order t ∧ Stops instrs t (peak instrs)) ∧
      ∀ order t, Visits instrs (start instrs nonempty) order t →
        order.Nodup ∧ t.peak ≤ order.length ∧
        ∀ r, Stops instrs t r → ∀ m, r = .ok m ↔ peak instrs = .ok m) ∧
    (∀ other, SameReached instrs other → ∀ m, verify other = .ok m ↔ verify instrs = .ok m) := by
  refine ⟨⟨?_, ?_⟩, ?_, ?_, ?_⟩
  · rintro ⟨m, verified⟩
    have found := verify_eq_ok verified
    obtain ⟨depth, _, assigns, -⟩ := exists_peak_iff.1 ⟨_, found⟩
    have peak := isPeak_of_peak found assigns
    refine ⟨depth, assigns, fun k occurs => ?_⟩
    have low := peak.bound k occurs
    have := m.toNat_lt
    omega
  · rintro ⟨depth, assigns, low⟩
    obtain ⟨m, found⟩ := exists_peak_iff.2 ⟨depth, _, assigns, low⟩
    have small : m < 65536 := by
      rcases (isPeak_of_peak found assigns).attained with occurs | ⟨-, rfl⟩
      · have := low m occurs
        omega
      · omega
    exact ⟨UInt16.ofNat m, verify_of_peak (by rw [UInt16.toNat_ofNat_of_lt' small, found])⟩
  · intro m depth verified assigns
    exact isPeak_of_peak (verify_eq_ok verified) assigns
  · intro nonempty
    refine ⟨peak_visits nonempty, fun order t visits => ⟨(visits.nodup start_orderly).1, ?_, ?_⟩⟩
    · have low := visits.low start_orderly (Nat.zero_le 0) fun hk => Nat.le_of_eq (start_depths.1 hk).2
      rwa [Nat.zero_add] at low
    · intro r stops m
      rw [visits.stops_ok_iff stops, peak_eq_ok_iff nonempty]
  · intro other same m
    constructor
    · intro verified
      exact verify_of_peak (same.symm.peak_eq_ok (verify_eq_ok verified))
    · intro verified
      exact verify_of_peak (same.peak_eq_ok (verify_eq_ok verified))

-- The second instruction would find nothing to take, but control does not come to it.
example : (verify #[.goto 2, .pop, .ret]).toOption = some 0 := by decide +kernel

end Stacklet
