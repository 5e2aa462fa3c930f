import Stacklet.Proofs.Assembly.Placed
import Stacklet.Proofs.Lowering.Labels

/-!
# Disciplined calls assemble

Calls that mention labels only after they are made and bind each of them once, followed by an
instruction that no label can be bound behind, are assembled without an error as long as offsets cannot
overflow (`instrs_of_disciplined`). How dense tables have to be does not matter.
-/

namespace Stacklet

theorem Call.mentions_draft {call : Call} {d : Draft} (h : call.draft? = some d) :
    ∀ l ∈ d.mentions, l ∈ call.mentions := by
  cases call with
  | makeLabel | bind => cases h
  | add | inc => cases h; exact nofun
  | jump => cases h; exact fun l mem => mem
  | switch keys labels other =>
    cases h
    intro l mem
    rcases List.mem_cons.1 mem with rfl | mem
    · exact List.mem_cons_self
    · obtain ⟨arm, ha, rfl⟩ := List.mem_map.1 mem
      exact List.mem_cons_of_mem _ (List.of_mem_zip (Arm.sorted_subset ha)).2

theorem binds_cons (id : Nat) (call : Call) (cs : List Call) :
    binds id (call :: cs) = binds id [call] + binds id cs :=
  binds_append id [call] cs

namespace Assembler

/-- How often a label is bound. -/
def bound (a : Assembler) (id : Nat) : Nat := if (a.labels[id]?).join.isSome then 1 else 0

/-- An assembler that found nothing wrong so far. -/
structure Ready (a : Assembler) : Prop where
  faultless : a.misbound = none
  behind : ∀ {id pos : Nat}, a.labels[id]? = some (some pos) → pos ≤ a.position
  made : ∀ d ∈ a.drafts, ∀ l ∈ d.mentions, l.id < a.labels.size

theorem Ready.add {a : Assembler} (h : a.Ready) {d : Draft} (made : ∀ l ∈ d.mentions, l.id < a.labels.size) :
    (a.add d).Ready where
  faultless := h.faultless
  behind hl := by
    rw [position, Assembler.add, Array.size_push]
    exact Nat.le_succ_of_le (h.behind hl)
  made d' mem := by
    rcases Array.mem_push.1 mem with mem | rfl
    · exact h.made d' mem
    · exact made

/-- A call that mentions only labels that are made, and binds none again, leaves nothing wrong. -/
theorem Ready.next {a : Assembler} (h : a.Ready) {call : Call}
    (made : ∀ l ∈ call.mentions, l.id < a.labels.size)
    (once : ∀ id, a.bound id + binds id [call] ≤ 1) :
    (a.call call).Ready ∧ (a.call call).labels.size = a.labels.size + call.labelsMade ∧
    ∀ id, (a.call call).bound id = a.bound id + binds id [call] := by
  cases call with
  | makeLabel =>
    refine ⟨⟨h.faultless, fun {id pos} hl => ?_, fun d mem l hl => ?_⟩, Array.size_push _, fun id => ?_⟩
    · rw [Assembler.call, Array.getElem?_push] at hl
      split at hl
      · cases hl
      · exact h.behind hl
    · rw [Assembler.call, Array.size_push]
      exact Nat.lt_succ_of_lt (h.made d mem l hl)
    · rw [binds_makeLabel, binds_nil, bound, bound, Assembler.call, Array.getElem?_push]
      split
      · next last => rw [last, Array.getElem?_eq_none (Nat.le_refl _)]; rfl
      · rfl
  | bind l =>
    have inside : l.id < a.labels.size := made l (List.mem_singleton.2 rfl)
    have unbound : a.labels[l.id]? = some none := by
      have count := once l.id
      rw [binds_bind, binds_nil, if_pos rfl, bound] at count
      rw [Array.getElem?_eq_getElem inside] at count ⊢
      cases hl : a.labels[l.id] with
      | none => rfl
      | some pos =>
        rw [hl] at count
        change 1 + (0 + 1) ≤ 1 at count
        omega
    have result : a.call (.bind l) = { a with labels := a.labels.setIfInBounds l.id (some a.position) } := by
      rw [Assembler.call, Assembler.bind, unbound]
    rw [result]
    refine ⟨⟨h.faultless, fun {id pos} hl => ?_, fun d mem l' hl => ?_⟩, ?_, fun id => ?_⟩
    · rw [Array.getElem?_setIfInBounds] at hl
      split at hl
      · cases hl
        exact Nat.le_refl _
      · exact h.behind hl
    · rw [Array.size_setIfInBounds]
      exact h.made d mem l' hl
    · exact Array.size_setIfInBounds
    · rw [binds_bind, binds_nil, bound, bound, Array.getElem?_setIfInBounds]
      split
      · next same =>
        subst same
        rw [unbound]
        rfl
      · rfl
  | add i | inc slot delta => exact ⟨h.add (List.forall_mem_nil _), rfl, fun id => rfl⟩
  | jump j l => exact ⟨h.add made, rfl, fun id => rfl⟩
  | switch keys labels other =>
    exact ⟨h.add fun l mem => made l (Call.mentions_draft rfl l mem), rfl, fun id => rfl⟩

theorem Ready.run {a : Assembler} (h : a.Ready) {cs : List Call} {n : Nat}
    (order : Scoped a.labels.size cs n) (once : ∀ id, a.bound id + binds id cs ≤ 1) :
    (cs.foldl call a).Ready ∧ (cs.foldl call a).labels.size = n ∧
    ∀ id, (cs.foldl call a).bound id = a.bound id + binds id cs := by
  induction cs generalizing a with
  | nil => exact ⟨h, order.symm, fun id => rfl⟩
  | cons call cs ih =>
    have single (id : Nat) : a.bound id + binds id [call] ≤ 1 := by
      have := once id
      rw [binds_cons] at this
      omega
    obtain ⟨ready, size, bound⟩ := h.next order.1 single
    obtain ⟨ready', size', bound'⟩ := ih ready (by rw [size]; exact order.2) fun id => by
      rw [bound, Nat.add_assoc, ← binds_cons]
      exact once id
    exact ⟨ready', size', fun id => by rw [List.foldl_cons, bound', bound, Nat.add_assoc, ← binds_cons]⟩

/-- A label that is bound to an instruction is located, and at an offset that fits if there are not too
many instructions. -/
theorem exists_offset {a : Assembler} {pc pos : Nat} {l : Label} (found : a.labels[l.id]? = some (some pos))
    (inside : pos < a.position) (here : pc < a.position) (small : a.position ≤ 2147483648) :
    ∃ offset, a.offset pc l = .ok offset := by
  have fits : -2147483648 ≤ (pos : Int) - pc ∧ (pos : Int) - pc ≤ 2147483647 := by omega
  exact ⟨_, offset_eq_ok_iff.2 ⟨pos, found, inside, fits, rfl⟩⟩

/-- Disciplined calls with an instruction behind them assemble. -/
theorem instrs_of_disciplined {cs : List Call} {n : Nat} (disciplined : Disciplined 0 cs n) (i : Instr)
    (small : codeSize (cs ++ [.add i]) < 2147483648) (minDensity : Float) :
    ∃ instrs, (ofCalls (cs ++ [.add i])).instrs minDensity = .ok instrs := by
  have start : empty.Ready := ⟨rfl, nofun, nofun⟩
  have once (id : Nat) : empty.bound id + binds id cs ≤ 1 := by
    rw [disciplined.once]
    change 0 + _ ≤ 1
    split <;> decide
  obtain ⟨ready, size, bound⟩ := start.run disciplined.order once
  have last : ofCalls (cs ++ [.add i]) = (ofCalls cs).add (.plain i) := List.foldl_append
  have room : (ofCalls (cs ++ [.add i])).position = (ofCalls cs).position + 1 := by
    rw [last]
    exact Array.size_push _
  have limit : (ofCalls (cs ++ [.add i])).position < 2147483648 := by
    rw [ofCalls, position_foldl, show empty.position = 0 from rfl, Nat.zero_add]
    exact small
  -- The last instruction is behind all labels, so that each of them stands for an instruction.
  have located (pc : Nat) (here : pc < (ofCalls (cs ++ [.add i])).position) (l : Label) (made : l.id < n) :
      ∃ offset, (ofCalls (cs ++ [.add i])).offset pc l = .ok offset := by
    have found := bound l.id
    rw [disciplined.once, if_pos ⟨Nat.zero_le _, made⟩, show empty.bound l.id = 0 from rfl,
      Assembler.bound] at found
    cases hl : ((ofCalls cs).labels[l.id]?).join with
    | none => rw [ofCalls] at hl; rw [hl] at found; cases found
    | some pos =>
      have hl := Option.join_eq_some_iff.1 hl
      have found : (ofCalls (cs ++ [.add i])).labels[l.id]? = some (some pos) := by
        rw [last]
        exact hl
      have inside : pos < (ofCalls (cs ++ [.add i])).position := by
        rw [room]
        exact Nat.lt_succ_of_le (ready.behind hl)
      exact exists_offset found inside here (Nat.le_of_lt limit)
  have final : (ofCalls (cs ++ [.add i])).Ready := by
    rw [last]
    exact ready.add nofun
  unfold Assembler.instrs
  rw [final.faultless]
  refine exists_mapM_eq_ok fun (d, pc) mem => ?_
  rw [List.mk_mem_zipIdx_iff_getElem?, Array.getElem?_toList] at mem
  obtain ⟨here, -⟩ := Array.getElem?_eq_some_iff.1 mem
  refine ⟨_, resolve_of_offsets minDensity fun l hl => located pc here l ?_⟩
  have made := final.made d (Array.mem_of_getElem? mem) l hl
  rw [last] at made
  exact size ▸ made

end Assembler

end Stacklet
