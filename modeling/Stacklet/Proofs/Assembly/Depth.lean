import Stacklet.Assembly.Verify
import Stacklet.Proofs.Sequence

/-!
# Depth assignments

A depth assignment gives instructions the number of values on the stack with which they are reached.
It is consistent when it starts with an empty stack, lets no instruction take more than there is, and
gives all instructions to which control may go the depth that is left. Visits in any order find such an
assignment if they succeed (`Visits.consistent`), and succeed if there is one (`Visits.stops`);
verification makes them in one order (`peak_visits`).
-/

namespace Stacklet.Verify

/-- A consistent assignment of depths up to a bound. It leaves out instructions that are not reached. -/
structure Consistent (instrs : Array Instr) (bound : Nat) (depth : Nat → Option Nat) : Prop where
  entry : depth 0 = some 0
  inside : ∀ {pc k : Nat}, depth pc = some k → ∃ i, instrs[pc]? = some i
  pops : ∀ {pc k : Nat} {i : Instr}, depth pc = some k → instrs[pc]? = some i → i.pops ≤ k
  before : ∀ {pc k : Nat}, depth pc = some k → k ≤ bound
  after : ∀ {pc k : Nat} {i : Instr}, depth pc = some k → instrs[pc]? = some i →
    k - i.pops + i.pushes ≤ bound
  jump : ∀ {pc k : Nat} {i : Instr} {offset : Int32}, depth pc = some k → instrs[pc]? = some i →
    offset ∈ i.offsets →
    ∃ next : Nat, (next : Int) = pc + offset.toInt ∧ depth next = some (k - i.pops + i.pushes)
  next : ∀ {pc k : Nat} {i : Instr}, depth pc = some k → instrs[pc]? = some i →
    i.fallsThrough = true → depth (pc + 1) = some (k - i.pops + i.pushes)

variable {size : Nat}

/-- An offset leads to the position that it is counted to. -/
theorem target_eq_ok {pc : Nat} {offset : Int32} {next : Fin size} :
    target size pc offset = .ok next ↔ (next : Int) = pc + offset.toInt := by
  have bound := next.isLt
  unfold target
  simp only
  split
  · next h =>
    rw [Except.ok.injEq, Fin.ext_iff]
    simp only
    omega
  · next h => exact ⟨nofun, fun e => absurd e (by omega)⟩

/-- The successors of an instruction are where its offsets lead and, if control may fall through, the
next one; all of these lie in the code. -/
theorem successors_eq_ok {pc : Nat} {i : Instr} {nexts : List (Fin size)}
    (h : successors size pc i = .ok nexts) :
    (∀ next ∈ nexts, (∃ offset ∈ i.offsets, (next : Int) = pc + offset.toInt) ∨
      i.fallsThrough = true ∧ (next : Nat) = pc + 1) ∧
    (∀ offset ∈ i.offsets, ∃ next ∈ nexts, (next : Int) = pc + offset.toInt) ∧
    (i.fallsThrough = true → ∃ next ∈ nexts, (next : Nat) = pc + 1) := by
  unfold successors at h
  cases ht : i.offsets.mapM (target size pc) with
  | error e => rw [ht] at h; cases h
  | ok targets =>
    have sources : ∀ next ∈ targets, ∃ offset ∈ i.offsets, (next : Int) = pc + offset.toInt := by
      intro next hm
      obtain ⟨offset, ho, he⟩ := mem_of_mapM ht hm
      exact ⟨offset, ho, target_eq_ok.1 he⟩
    have reached : ∀ offset ∈ i.offsets, ∃ next ∈ targets, (next : Int) = pc + offset.toInt := by
      intro offset ho
      obtain ⟨next, hm, he⟩ := exists_of_mapM ht ho
      exact ⟨next, hm, target_eq_ok.1 he⟩
    rw [ht] at h
    cases falls : i.fallsThrough with
    | false =>
      simp only [falls] at h
      cases h
      exact ⟨fun next hm => .inl (sources next hm), reached, nofun⟩
    | true =>
      simp only [falls, bind, Except.bind, if_true] at h
      split at h
      · next inside =>
        cases h
        refine ⟨fun next hm => ?_, fun offset ho => ?_, fun _ => ⟨⟨pc + 1, inside⟩, by simp, rfl⟩⟩
        · rcases List.mem_append.1 hm with hm | hm
          · exact .inl (sources next hm)
          · exact .inr ⟨rfl, by rw [List.mem_singleton.1 hm]⟩
        · obtain ⟨next, hm, he⟩ := reached offset ho
          exact ⟨next, List.mem_append_left _ hm, he⟩
      · cases h

/-- An instruction has successors when all that control may go to lies in the code. -/
theorem exists_successors {pc : Nat} {i : Instr}
    (jumps : ∀ offset ∈ i.offsets, ∃ next : Fin size, (next : Int) = pc + offset.toInt)
    (falls : i.fallsThrough = true → pc + 1 < size) : ∃ nexts, successors size pc i = .ok nexts := by
  obtain ⟨targets, ht⟩ := exists_mapM_eq_ok (f := target size pc) fun offset ho => by
    obtain ⟨next, hn⟩ := jumps offset ho
    exact ⟨next, target_eq_ok.2 hn⟩
  unfold successors
  rw [ht]
  cases hf : i.fallsThrough with
  | false => exact ⟨targets, rfl⟩
  | true =>
    refine ⟨targets ++ [⟨pc + 1, falls hf⟩], ?_⟩
    simp only [bind, Except.bind, if_true, dif_pos (falls hf)]
    rfl

namespace Sweep

/-- The depth found for a position, if there is one. -/
def depthAt (s : Sweep size) (pc : Nat) : Option Nat := s.depths[pc]?.join

theorem depthAt_fin (s : Sweep size) (pc : Fin size) : s.depthAt pc = s.depths.get pc := by
  rw [depthAt, Vector.getElem?_eq_getElem pc.isLt]
  rfl

theorem lt_of_depthAt {s : Sweep size} {pc k : Nat} (h : s.depthAt pc = some k) : pc < size :=
  (Vector.getElem?_eq_some_iff.1 (Option.join_eq_some_iff.1 h)).1

/-- What noting a depth for some instructions leaves: those had none or the same before, and the new
ones are to be visited. -/
structure Noted (depth : Nat) (pcs : List (Fin size)) (s t : Sweep size) : Prop where
  peak : t.peak = s.peak
  keeps : ∀ {pc : Fin size} {k : Nat}, s.depthAt pc = some k → t.depthAt pc = some k
  noted : ∀ {pc : Fin size}, pc ∈ pcs → t.depthAt pc = some depth
  fresh : ∀ {pc : Fin size} {k : Nat}, t.depthAt pc = some k →
    s.depthAt pc = some k ∨ pc ∈ pcs ∧ k = depth ∧ pc ∈ t.work
  work : ∀ {pc : Fin size}, pc ∈ t.work →
    pc ∈ s.work ∨ s.depthAt pc = none ∧ t.depthAt pc = some depth
  pending : ∀ {pc : Fin size}, pc ∈ s.work → pc ∈ t.work

theorem noted_of_note {depth : Nat} {pc : Fin size} {s t : Sweep size} (h : s.note depth pc = .ok t) :
    Noted depth [pc] s t := by
  unfold note at h
  split at h
  · next hn =>
    cases h
    have get : ∀ q : Fin size, depthAt ⟨s.depths.set pc (some depth), pc :: s.work, s.peak⟩ q =
        if q = pc then some depth else s.depthAt q := by
      intro q
      rw [depthAt_fin, depthAt_fin]
      refine (Vector.getElem_set pc.isLt q.isLt).trans ?_
      simp only [Fin.ext_iff, eq_comm]
      rfl
    refine ⟨rfl, ?_, ?_, ?_, ?_, ?_⟩
    · intro q k hq
      have other : q ≠ pc := by
        rintro rfl
        rw [depthAt_fin] at hq
        cases hn.symm.trans hq
      rw [get, if_neg other, hq]
    · intro q hq
      rw [get, if_pos (List.mem_singleton.1 hq)]
    · intro q k hq
      rw [get] at hq
      split at hq
      · next e => cases hq; subst e; exact .inr ⟨List.mem_cons_self, rfl, List.mem_cons_self⟩
      · exact .inl hq
    · intro q hq
      rcases List.mem_cons.1 hq with rfl | hq
      · exact .inr ⟨(s.depthAt_fin q).trans hn, by rw [get, if_pos rfl]⟩
      · exact .inl hq
    · intro q hq
      exact List.mem_cons_of_mem _ hq
  · next seen hs =>
    split at h
    · next e =>
      cases h
      subst e
      refine ⟨rfl, id, ?_, .inl, .inl, id⟩
      intro q hq
      rw [List.mem_singleton.1 hq, depthAt_fin]
      exact hs
    · cases h

theorem noted_of_notes {depth : Nat} {pcs : List (Fin size)} {s t : Sweep size}
    (h : pcs.foldlM (note depth) s = .ok t) : Noted depth pcs s t := by
  induction pcs generalizing s with
  | nil =>
    cases h
    exact ⟨rfl, id, nofun, .inl, .inl, id⟩
  | cons pc pcs ih =>
    rw [List.foldlM_cons] at h
    cases hn : s.note depth pc with
    | error e => rw [hn] at h; cases h
    | ok u =>
      rw [hn] at h
      have first := noted_of_note hn
      have rest := ih h
      refine ⟨rest.peak.trans first.peak, fun hq => rest.keeps (first.keeps hq), ?_, ?_, ?_,
        fun hq => rest.pending (first.pending hq)⟩
      · intro q hq
        rcases List.mem_cons.1 hq with rfl | hq
        · exact rest.keeps (first.noted List.mem_cons_self)
        · exact rest.noted hq
      · intro q k hq
        rcases rest.fresh hq with hq | ⟨hq, hk, hw⟩
        · rcases first.fresh hq with hq | ⟨hq, hk, hw⟩
          · exact .inl hq
          · exact .inr ⟨List.mem_cons.2 (.inl (List.mem_singleton.1 hq)), hk, rest.pending hw⟩
        · exact .inr ⟨List.mem_cons_of_mem _ hq, hk, hw⟩
      · intro q hq
        rcases rest.work hq with hq | ⟨unseen, hq⟩
        · rcases first.work hq with hq | ⟨unseen, hq⟩
          · exact .inl hq
          · exact .inr ⟨unseen, rest.keeps hq⟩
        · refine .inr ⟨Option.eq_none_iff_forall_ne_some.2 fun k hk => ?_, hq⟩
          cases unseen.symm.trans (first.keeps hk)

/-- Depths that an assignment gives can be noted beside depths that it gives. -/
theorem exists_notes {assigned : Nat → Option Nat} {depth : Nat} {pcs : List (Fin size)} {s : Sweep size}
    (found : ∀ {pc : Fin size} {k : Nat}, s.depthAt pc = some k → assigned pc = some k)
    (given : ∀ pc ∈ pcs, assigned pc = some depth) : ∃ t, pcs.foldlM (note depth) s = .ok t := by
  induction pcs generalizing s with
  | nil => exact ⟨s, rfl⟩
  | cons pc pcs ih =>
    have here := given pc List.mem_cons_self
    obtain ⟨u, hu⟩ : ∃ u, s.note depth pc = .ok u := by
      unfold note
      split
      · exact ⟨_, rfl⟩
      · next seen hs =>
        have same : seen = depth := Option.some.inj ((found ((s.depthAt_fin pc).trans hs)).symm.trans here)
        exact ⟨s, if_pos same⟩
    have noted := noted_of_note hu
    obtain ⟨t, ht⟩ := ih (s := u)
      (fun hq => by
        rcases noted.fresh hq with hq | ⟨hq, rfl, -⟩
        · exact found hq
        · rw [List.mem_singleton.1 hq, here])
      (fun q hq => given q (List.mem_cons_of_mem _ hq))
    exact ⟨t, by rw [List.foldlM_cons, hu]; exact ht⟩

/-- What is left of a depth after an instruction. -/
def afterOf (i : Instr) (depth : Nat) : Nat := depth - i.pops + i.pushes

/-- Work in which each instruction stands once, and only if its depth is known. -/
structure Orderly (s : Sweep size) : Prop where
  single : s.work.Nodup
  known : ∀ {pc : Fin size}, pc ∈ s.work → ∃ k, s.depthAt pc = some k

theorem Orderly.note {depth : Nat} {pc : Fin size} {s t : Sweep size} (h : s.Orderly)
    (hn : s.note depth pc = .ok t) : t.Orderly := by
  have noted := noted_of_note hn
  constructor
  · unfold Sweep.note at hn
    split at hn
    · next unseen =>
      cases hn
      refine List.nodup_cons.2 ⟨fun mem => ?_, h.single⟩
      obtain ⟨k, hk⟩ := h.known mem
      rw [depthAt_fin] at hk
      cases unseen.symm.trans hk
    · split at hn
      · cases hn
        exact h.single
      · cases hn
  · intro q hq
    rcases noted.work hq with hq | ⟨-, hq⟩
    · obtain ⟨k, hk⟩ := h.known hq
      exact ⟨k, noted.keeps hk⟩
    · exact ⟨depth, hq⟩

theorem Orderly.notes {depth : Nat} {pcs : List (Fin size)} {s t : Sweep size} (h : s.Orderly)
    (hn : pcs.foldlM (Sweep.note depth) s = .ok t) : t.Orderly := by
  induction pcs generalizing s with
  | nil =>
    cases hn
    exact h
  | cons pc pcs ih =>
    rw [List.foldlM_cons] at hn
    cases first : s.note depth pc with
    | error e => rw [first] at hn; cases hn
    | ok u =>
      rw [first] at hn
      exact ih (h.note first) hn

/-- An instruction that has been visited: it can be executed at its depth, and all that control may go
to has the depth that is left. -/
structure Visited (s : Sweep size) (pc : Fin size) (i : Instr) (k : Nat) : Prop where
  pops : i.pops ≤ k
  before : k ≤ s.peak
  after : afterOf i k ≤ s.peak
  nexts : ∃ nexts, successors size pc i = .ok nexts ∧ ∀ next ∈ nexts, s.depthAt next = some (afterOf i k)

theorem Visited.mono {s t : Sweep size} {pc : Fin size} {i : Instr} {k : Nat} (h : s.Visited pc i k)
    (peak : s.peak ≤ t.peak)
    (keeps : ∀ {q : Fin size} {k : Nat}, s.depthAt q = some k → t.depthAt q = some k) : t.Visited pc i k where
  pops := h.pops
  before := Nat.le_trans h.before peak
  after := Nat.le_trans h.after peak
  nexts := by
    obtain ⟨nexts, hn, hd⟩ := h.nexts
    exact ⟨nexts, hn, fun next hm => keeps (hd next hm)⟩

end Sweep

open Sweep

/-! ## Visits in any order -/

section Visits

/-- The sweep after an instruction is taken from the work, before its successors are noted. -/
def take {size : Nat} (s : Sweep size) (pc : Fin size) (i : Instr) (depth : Nat) : Sweep size :=
  ⟨s.depths, s.work.erase pc, max s.peak (max depth (afterOf i depth))⟩

/-- Visits an instruction at a depth. -/
def visitAt {size : Nat} (s : Sweep size) (pc : Fin size) (i : Instr) (depth : Nat) :
    Except VerifyError (Sweep size) :=
  if depth < i.pops then .error (.underflow pc i depth)
  else
    match successors size pc i with
    | .error e => .error e
    | .ok nexts => nexts.foldlM (note (afterOf i depth)) (take s pc i depth)

/-- Visits an instruction of the work, whichever it is. -/
def visit (instrs : Array Instr) (s : Sweep instrs.size) (pc : Fin instrs.size) :
    Except VerifyError (Sweep instrs.size) :=
  visitAt s pc (instrs.toVector.get pc) ((s.depths.get pc).getD 0)

variable {instrs : Array Instr} {s t : Sweep instrs.size} {pc : Fin instrs.size} {k : Nat}

theorem getElem?_eq_get (pc : Fin instrs.size) : instrs[pc.val]? = some (instrs.toVector.get pc) :=
  Array.getElem?_eq_getElem pc.isLt

theorem visit_of_depthAt {i : Instr} (hi : instrs[pc.val]? = some i) (hk : s.depthAt pc = some k) :
    visit instrs s pc = visitAt s pc i k := by
  obtain rfl := Option.some.inj (hi.symm.trans (getElem?_eq_get pc))
  rw [visit, ← depthAt_fin, hk, Option.getD_some]

/-- A visit that succeeds notes the successors of an instruction that can be executed. -/
theorem visit_eq_ok (hk : s.depthAt pc = some k) (h : visit instrs s pc = .ok t) :
    ∃ i, instrs[pc.val]? = some i ∧ i.pops ≤ k ∧ ∃ nexts, successors instrs.size pc i = .ok nexts ∧
      nexts.foldlM (note (afterOf i k)) (take s pc i k) = .ok t := by
  rw [visit_of_depthAt (getElem?_eq_get pc) hk, visitAt] at h
  split at h
  · cases h
  · next enough =>
    split at h
    · cases h
    · next nexts hn => exact ⟨_, getElem?_eq_get pc, Nat.le_of_not_lt enough, nexts, hn, h⟩

/-- A visit leaves the work in order. -/
theorem Sweep.Orderly.step (h : s.Orderly) (mem : pc ∈ s.work) (hv : visit instrs s pc = .ok t) :
    t.Orderly := by
  obtain ⟨k, hk⟩ := h.known mem
  obtain ⟨i, -, -, nexts, -, hn⟩ := visit_eq_ok hk hv
  have taken : (take s pc i k).Orderly := by
    constructor
    · exact h.single.erase pc
    · intro q hq
      exact h.known (List.mem_of_mem_erase hq)
  exact taken.notes hn

/-- An instruction that has been visited does not come back. -/
theorem Sweep.Orderly.visited (h : s.Orderly) (mem : pc ∈ s.work) (hv : visit instrs s pc = .ok t) :
    pc ∉ t.work ∧ ∀ q ∈ t.work, q ∈ s.work ∨ s.depthAt q = none := by
  obtain ⟨k, hk⟩ := h.known mem
  obtain ⟨i, -, -, nexts, -, hn⟩ := visit_eq_ok hk hv
  have noted := noted_of_notes hn
  constructor
  · intro again
    rcases noted.work again with again | ⟨unseen, -⟩
    · exact h.single.not_mem_erase again
    · cases unseen.symm.trans hk
  · intro q hq
    rcases noted.work hq with hq | ⟨unseen, -⟩
    · exact .inl (List.mem_of_mem_erase hq)
    · exact .inr unseen

theorem depthAt_of_visit (h : s.Orderly) (mem : pc ∈ s.work) (hv : visit instrs s pc = .ok t)
    {q : Fin instrs.size} {j : Nat} (hq : s.depthAt q = some j) : t.depthAt q = some j := by
  obtain ⟨k, hk⟩ := h.known mem
  obtain ⟨i, -, -, nexts, -, hn⟩ := visit_eq_ok hk hv
  exact (noted_of_notes hn).keeps hq

/-- Every instruction with a depth has been visited or is to be visited. -/
structure Sweep.Sound (s : Sweep instrs.size) : Prop where
  visited : ∀ {pc : Fin instrs.size} {k : Nat} {i : Instr}, s.depthAt pc = some k → instrs[pc.val]? = some i →
    pc ∈ s.work ∨ s.Visited pc i k

/-- A visit keeps what has been visited. -/
theorem Sweep.Sound.step (sound : s.Sound) (h : s.Orderly) (mem : pc ∈ s.work)
    (hv : visit instrs s pc = .ok t) : t.Sound := by
  obtain ⟨k, hk⟩ := h.known mem
  obtain ⟨i, hi, enough, nexts, hs, hn⟩ := visit_eq_ok hk hv
  have noted := noted_of_notes hn
  have peak : t.peak = max s.peak (max k (afterOf i k)) := noted.peak
  have here : t.Visited pc i k :=
    ⟨enough, by omega, by omega, nexts, hs, fun next hm => noted.noted hm⟩
  constructor
  intro q j i' hq hi'
  rcases noted.fresh hq with hq | ⟨-, -, hq⟩
  · rcases sound.visited hq hi' with waits | visited
    · by_cases same : q = pc
      · subst same
        cases hk.symm.trans hq
        cases hi.symm.trans hi'
        exact .inr here
      · exact .inl (noted.pending ((List.mem_erase_of_ne same).2 waits))
    · exact .inr (visited.mono (by omega) fun h => noted.keeps h)
  · exact .inl hq

/-- When nothing is left to be visited, the depths found are a consistent assignment. -/
theorem Sweep.Sound.consistent (sound : s.Sound) (done : s.work = []) (entry : s.depthAt 0 = some 0) :
    Consistent instrs s.peak s.depthAt := by
  have visited : ∀ {pc k : Nat} {i : Instr}, s.depthAt pc = some k → instrs[pc]? = some i →
      ∃ q : Fin instrs.size, q.val = pc ∧ s.Visited q i k := by
    intro pc k i hk hi
    have inside := (Array.getElem?_eq_some_iff.1 hi).1
    refine ⟨⟨pc, inside⟩, rfl, ?_⟩
    rcases sound.visited (show s.depthAt (⟨pc, inside⟩ : Fin instrs.size) = some k from hk) hi with hw | hv
    · rw [done] at hw
      cases hw
    · exact hv
  have inside : ∀ {pc k : Nat}, s.depthAt pc = some k → ∃ i, instrs[pc]? = some i := by
    intro pc k hk
    exact ⟨_, Array.getElem?_eq_getElem (lt_of_depthAt hk)⟩
  refine ⟨entry, inside, ?_, ?_, ?_, ?_, ?_⟩
  · intro pc k i hk hi
    obtain ⟨q, rfl, hv⟩ := visited hk hi
    exact hv.pops
  · intro pc k hk
    obtain ⟨i, hi⟩ := inside hk
    obtain ⟨q, rfl, hv⟩ := visited hk hi
    exact hv.before
  · intro pc k i hk hi
    obtain ⟨q, rfl, hv⟩ := visited hk hi
    exact hv.after
  · intro pc k i offset hk hi ho
    obtain ⟨q, rfl, hv⟩ := visited hk hi
    obtain ⟨nexts, hn, hd⟩ := hv.nexts
    obtain ⟨next, hm, he⟩ := (successors_eq_ok hn).2.1 offset ho
    exact ⟨next, he, hd next hm⟩
  · intro pc k i hk hi falls
    obtain ⟨q, rfl, hv⟩ := visited hk hi
    obtain ⟨nexts, hn, hd⟩ := hv.nexts
    obtain ⟨next, hm, he⟩ := (successors_eq_ok hn).2.2 falls
    exact he ▸ hd next hm

variable {bound : Nat} {depth : Nat → Option Nat}

/-- A consistent assignment gives every successor the depth that is left. -/
theorem Consistent.successor (consistent : Consistent instrs bound depth) {pc k : Nat} {i : Instr}
    (hk : depth pc = some k) (hi : instrs[pc]? = some i) {nexts : List (Fin instrs.size)}
    (hn : successors instrs.size pc i = .ok nexts) : ∀ next ∈ nexts, depth next = some (afterOf i k) := by
  intro next hm
  rcases (successors_eq_ok hn).1 next hm with ⟨offset, ho, he⟩ | ⟨falls, he⟩
  · obtain ⟨next', hn', hd⟩ := consistent.jump hk hi ho
    rw [show (next : Nat) = next' by omega]
    exact hd
  · rw [he]
    exact consistent.next hk hi falls

/-- A sweep that has found nothing but what an assignment gives. -/
structure Sweep.Follows (bound : Nat) (depth : Nat → Option Nat) (s : Sweep instrs.size) : Prop where
  low : s.peak ≤ bound
  found : ∀ {pc : Fin instrs.size} {k : Nat}, s.depthAt pc = some k → depth pc = some k

/-- A visit cannot fail where there is a consistent assignment: each error that it could end with
contradicts one clause of it. -/
theorem Sweep.Follows.exists_visit (follows : s.Follows bound depth) (consistent : Consistent instrs bound depth)
    (hk : s.depthAt pc = some k) : ∃ t, visit instrs s pc = .ok t := by
  have given := follows.found hk
  obtain ⟨i, hi⟩ := consistent.inside given
  have enough := consistent.pops given hi
  obtain ⟨nexts, hn⟩ : ∃ nexts, successors instrs.size pc i = .ok nexts := by
    apply exists_successors
    · intro offset ho
      obtain ⟨next, hn, hd⟩ := consistent.jump given hi ho
      obtain ⟨_, inside⟩ := consistent.inside hd
      exact ⟨⟨next, (Array.getElem?_eq_some_iff.1 inside).1⟩, hn⟩
    · intro falls
      obtain ⟨_, inside⟩ := consistent.inside (consistent.next given hi falls)
      exact (Array.getElem?_eq_some_iff.1 inside).1
  rw [visit_of_depthAt hi hk, visitAt, if_neg (Nat.not_lt.2 enough), hn]
  exact exists_notes (s := take s pc i k) follows.found (consistent.successor given hi hn)

theorem Sweep.Follows.step (follows : s.Follows bound depth) (consistent : Consistent instrs bound depth)
    (hk : s.depthAt pc = some k) (hv : visit instrs s pc = .ok t) : t.Follows bound depth := by
  have given := follows.found hk
  obtain ⟨i, hi, -, nexts, hs, hn⟩ := visit_eq_ok hk hv
  have noted := noted_of_notes hn
  constructor
  · have low := follows.low
    have before := consistent.before given
    have after : afterOf i k ≤ bound := consistent.after given hi
    rw [noted.peak, take]
    simp only
    omega
  · intro q j hq
    rcases noted.fresh hq with hq | ⟨hm, rfl, -⟩
    · exact follows.found hq
    · exact consistent.successor given hi hs q hm

/-- Visits one after the other, each of any instruction of the work, with the instructions in the order
in which they are taken. -/
inductive Visits (instrs : Array Instr) :
    Sweep instrs.size → List (Fin instrs.size) → Sweep instrs.size → Prop
  | nil {s : Sweep instrs.size} : Visits instrs s [] s
  | next {s t u : Sweep instrs.size} {pc : Fin instrs.size} {order : List (Fin instrs.size)} :
    pc ∈ s.work → visit instrs s pc = .ok t → Visits instrs t order u → Visits instrs s (pc :: order) u

/-- How visits come to an end: nothing is left to be visited, or a visit fails. -/
inductive Stops (instrs : Array Instr) (s : Sweep instrs.size) : Except VerifyError Nat → Prop
  | done : s.work = [] → Stops instrs s (.ok s.peak)
  | failed {pc e} : pc ∈ s.work → visit instrs s pc = .error e → Stops instrs s (.error e)

/-- Verification visits instructions in one order, always the last one that joined the work. -/
theorem sweep_visits (s : Sweep instrs.size) :
    ∃ order t, Visits instrs s order t ∧ Stops instrs t (sweep instrs s) := by
  fun_induction sweep instrs s with
  | case1 s hw => exact ⟨[], s, .nil, .done hw⟩
  | case2 s pc work hw instr depth short =>
    have mem : pc ∈ s.work := hw ▸ List.mem_cons_self
    refine ⟨[], s, .nil, .failed mem ?_⟩
    change visitAt s pc instr depth = _
    rw [visitAt, if_pos short]
  | case3 s pc work hw instr depth enough e he =>
    have mem : pc ∈ s.work := hw ▸ List.mem_cons_self
    refine ⟨[], s, .nil, .failed mem ?_⟩
    change visitAt s pc instr depth = _
    rw [visitAt, if_neg enough, he]
  | case4 s pc work hw instr depth enough after nexts hn popped e he =>
    have mem : pc ∈ s.work := hw ▸ List.mem_cons_self
    refine ⟨[], s, .nil, .failed mem ?_⟩
    change visitAt s pc instr depth = _
    rw [visitAt, if_neg enough, hn]
    simp only [take, hw, List.erase_cons_head]
    exact he
  | case5 s pc work hw instr depth enough after nexts hn popped t ht ih =>
    obtain ⟨order, u, visits, stops⟩ := ih
    refine ⟨pc :: order, u, .next (hw ▸ List.mem_cons_self) ?_ visits, stops⟩
    change visitAt s pc instr depth = _
    rw [visitAt, if_neg enough, hn]
    simp only [take, hw, List.erase_cons_head]
    exact ht

namespace Visits

variable {order : List (Fin instrs.size)}

theorem orderly (h : Visits instrs s order t) (orderly : s.Orderly) : t.Orderly := by
  induction h with
  | nil => exact orderly
  | next mem hv _ ih => exact ih (orderly.step mem hv)

theorem keeps (h : Visits instrs s order t) (orderly : s.Orderly) (hq : s.depthAt pc = some k) :
    t.depthAt pc = some k := by
  induction h with
  | nil => exact hq
  | next mem hv _ ih => exact ih (orderly.step mem hv) (depthAt_of_visit orderly mem hv hq)

theorem sound (h : Visits instrs s order t) (orderly : s.Orderly) (sound : s.Sound) : t.Sound := by
  induction h with
  | nil => exact sound
  | next mem hv _ ih => exact ih (orderly.step mem hv) (sound.step orderly mem hv)

theorem follows (h : Visits instrs s order t) (consistent : Consistent instrs bound depth)
    (orderly : s.Orderly) (follows : s.Follows bound depth) : t.Follows bound depth := by
  induction h with
  | nil => exact follows
  | next mem hv _ ih =>
    obtain ⟨k, hk⟩ := orderly.known mem
    exact ih (orderly.step mem hv) (follows.step consistent hk hv)

end Visits

end Visits

/-- The sweep with which verification starts. -/
def start (instrs : Array Instr) (h : 0 < instrs.size) : Sweep instrs.size :=
  ⟨(Vector.replicate instrs.size none).set 0 (some 0), [⟨0, h⟩], 0⟩

section Start

variable {instrs : Array Instr} {nonempty : 0 < instrs.size}

theorem start_depths {pc k : Nat} : (start instrs nonempty).depthAt pc = some k ↔ pc = 0 ∧ k = 0 := by
  simp only [start, depthAt, Vector.getElem?_set, Vector.getElem?_replicate]
  by_cases first : pc = 0
  · subst first
    simp [eq_comm]
  · rw [if_neg (Ne.symm first)]
    split <;> simp [first]

theorem start_orderly : (start instrs nonempty).Orderly := by
  constructor
  · exact List.pairwise_singleton _ _
  · intro pc mem
    exact ⟨0, start_depths.2 ⟨congrArg Fin.val (List.mem_singleton.1 mem), rfl⟩⟩

/-- In whatever order instructions are visited: when none is left, they have a consistent assignment up to
the depth that is given. -/
theorem Visits.consistent {order : List (Fin instrs.size)} {t : Sweep instrs.size}
    (h : Visits instrs (start instrs nonempty) order t) (done : t.work = []) :
    Consistent instrs t.peak t.depthAt := by
  have sound : (start instrs nonempty).Sound := by
    constructor
    intro pc k i hk hi
    exact .inl (List.mem_singleton.2 (Fin.ext (start_depths.1 hk).1))
  have entry : t.depthAt (⟨0, nonempty⟩ : Fin instrs.size) = some 0 :=
    h.keeps start_orderly (start_depths.2 ⟨rfl, rfl⟩)
  exact (h.sound start_orderly sound).consistent done entry

/-- In whatever order instructions are visited: visits of code with a consistent assignment do not fail, and
give a depth up to its bound. -/
theorem Visits.stops {bound : Nat} {depth : Nat → Option Nat} (consistent : Consistent instrs bound depth)
    {order : List (Fin instrs.size)} {t : Sweep instrs.size} {r : Except VerifyError Nat}
    (h : Visits instrs (start instrs nonempty) order t) (stops : Stops instrs t r) :
    t.work = [] ∧ r = .ok t.peak ∧ t.peak ≤ bound := by
  have first : (start instrs nonempty).Follows bound depth := by
    constructor
    · exact Nat.zero_le bound
    · intro pc k hk
      obtain ⟨origin, rfl⟩ := start_depths.1 hk
      rw [origin]
      exact consistent.entry
  have follows := h.follows consistent start_orderly first
  cases stops with
  | done none => exact ⟨none, rfl, follows.low⟩
  | failed mem error =>
    obtain ⟨k, hk⟩ := (h.orderly start_orderly).known mem
    obtain ⟨u, hu⟩ := follows.exists_visit consistent hk
    cases error.symm.trans hu

end Start

/-- Verification visits instructions in some order, from the first one on. -/
theorem peak_visits {instrs : Array Instr} (nonempty : 0 < instrs.size) :
    ∃ order t, Visits instrs (start instrs nonempty) order t ∧ Stops instrs t (peak instrs) := by
  rw [peak, dif_pos nonempty]
  exact sweep_visits _

/-- Code that passes verification has a consistent assignment up to the depth that is given. -/
theorem exists_consistent {instrs : Array Instr} {m : Nat} (nonempty : 0 < instrs.size)
    (h : peak instrs = .ok m) : ∃ depth, Consistent instrs m depth := by
  obtain ⟨order, t, visits, stops⟩ := peak_visits nonempty
  rw [h] at stops
  cases stops with
  | done none => exact ⟨t.depthAt, visits.consistent none⟩

/-- Code with a consistent assignment passes verification, with a depth up to its bound. -/
theorem peak_eq_ok {instrs : Array Instr} {bound : Nat} {depth : Nat → Option Nat}
    (consistent : Consistent instrs bound depth) : ∃ m ≤ bound, peak instrs = .ok m := by
  obtain ⟨_, inside⟩ := consistent.inside consistent.entry
  obtain ⟨order, t, visits, stops⟩ := peak_visits (Array.getElem?_eq_some_iff.1 inside).1
  obtain ⟨-, result, low⟩ := visits.stops consistent stops
  exact ⟨t.peak, low, result⟩

end Stacklet.Verify
