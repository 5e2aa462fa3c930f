import Stacklet.Proofs.Assembly.Depth
import Stacklet.Proofs.Assembly.Placed
import Stacklet.Proofs.Lowering.Depths

/-!
# Depths of the stack in assembled code

The depths that are found along calls are a consistent assignment for the code in which the calls are
placed (`Deep.consistent`): at a label the depth is its level, however control comes to it.
-/

namespace Stacklet

theorem Instr.pushes_le (i : Instr) : i.pushes ≤ 3 := by
  cases i <;> exact Nat.le_of_ble_eq_true rfl

theorem Instr.Switches.effect {i : Instr} {position : Label → Nat} {pc : Nat} {keys : List Int32}
    {labels : List Label} {other : Label} (h : i.Switches position pc keys labels other) :
    i.pops = 1 ∧ i.pushes = 0 ∧ i.fallsThrough = false ∧ i.offsets ≠ [] := by
  obtain ⟨offset, found, -⟩ := h.chosen 0
  cases i with
  | tableSwitch | lookupSwitch => exact ⟨rfl, rfl, rfl, List.cons_ne_nil _ _⟩
  | _ => cases found

theorem Jump.effect (j : Jump) (offset : Int32) :
    (j.instr offset).pops = j.pops ∧ (j.instr offset).pushes = 0 ∧ (j.instr offset).offsets = [offset] ∧
    ((j.instr offset).fallsThrough = true → j ≠ .goto) := by
  cases j with
  | goto => exact ⟨rfl, rfl, rfl, nofun⟩
  | ifZero | ifCompare => exact ⟨rfl, rfl, rfl, nofun⟩

/-- Whether a label is mentioned in calls. -/
def Mentioned (l : Label) (cs : List Call) : Prop := ∃ call ∈ cs, l ∈ call.mentions

/-- What an instruction that is reached with some depth asks for. -/
structure Instr.Fits (i : Instr) (depth : Nat → Option Nat) (position level : Label → Nat) (cs : List Call)
    (pc d : Nat) : Prop where
  pops : i.pops ≤ d
  jump : ∀ offset ∈ i.offsets, ∃ l, Mentioned l cs ∧ pc + offset.toInt = position l ∧
    level l = d - i.pops + i.pushes
  next : i.fallsThrough = true → depth (pc + 1) = some (d - i.pops + i.pushes)
  returns : i.fallsThrough = false → i.offsets = [] → d = i.pops

namespace Instr.Fits

variable {i : Instr} {depth : Nat → Option Nat} {position level : Label → Nat} {call : Call}
  {cs : List Call} {instrs : Array Instr} {pc k d : Nat}

theorem cons (h : i.Fits depth position level cs pc d) : i.Fits depth position level (call :: cs) pc d where
  pops := h.pops
  jump offset mem := by
    obtain ⟨l, ⟨c, hc, hl⟩, rest⟩ := h.jump offset mem
    exact ⟨l, ⟨c, List.mem_cons_of_mem _ hc, hl⟩, rest⟩
  next := h.next
  returns := h.returns

theorem later (h : ∃ i, instrs[pc + 1 + k]? = some i ∧ i.Fits depth position level cs (pc + 1 + k) d) :
    ∃ i, instrs[pc + (k + 1)]? = some i ∧ i.Fits depth position level (call :: cs) (pc + (k + 1)) d := by
  rw [show pc + (k + 1) = pc + 1 + k by omega]
  obtain ⟨i, hi, fits⟩ := h
  exact ⟨i, hi, fits.cons⟩

end Instr.Fits

theorem exists_bound (ds : List Nat) : ∃ most, ∀ d ∈ ds, d ≤ most := by
  induction ds with
  | nil => exact ⟨0, nofun⟩
  | cons d ds ih =>
    obtain ⟨most, h⟩ := ih
    refine ⟨max d most, List.forall_mem_cons.2 ⟨Nat.le_max_left _ _, fun d' mem => ?_⟩⟩
    exact Nat.le_trans (h d' mem) (Nat.le_max_right _ _)

namespace Deep

variable {level : Label → Nat} {d d' : Nat} {cs : List Call} {ds : List Nat}

theorem length (h : Deep level d cs ds d') : ds.length = codeSize cs := by
  induction h with
  | nil => rfl
  | makeLabel _ ih | bind _ _ ih => rw [ih, codeSize_cons]; exact (Nat.zero_add _).symm
  | add _ _ _ _ _ ih | inc _ ih | jump _ _ _ _ ih | switch _ _ _ ih =>
    rw [List.length_cons, ih, codeSize_cons]
    exact Nat.add_comm _ 1

theorem head (h : Deep level d cs ds d') : (ds ++ [d'])[0]? = some d := by
  induction h with
  | nil => rfl
  | makeLabel _ ih => exact ih
  | bind hl _ ih => exact ih
  | add | inc | jump | switch => rfl

variable {instrs : Array Instr} {position : Label → Nat} {pc : Nat} {depth : Nat → Option Nat}

theorem agrees_tail (agrees : ∀ k ≤ (d :: ds).length, depth (pc + k) = (d :: ds ++ [d'])[k]?) :
    ∀ k ≤ ds.length, depth (pc + 1 + k) = (ds ++ [d'])[k]? := by
  intro k le
  rw [Nat.add_right_comm]
  exact agrees (k + 1) (Nat.succ_le_succ le)

theorem next_depth {d₁ : Nat} (agrees : ∀ k ≤ (d :: ds).length, depth (pc + k) = (d :: ds ++ [d'])[k]?)
    (h : Deep level d₁ cs ds d') : depth (pc + 1) = some d₁ := by
  rw [← h.head]
  exact agrees_tail agrees 0 (Nat.zero_le _)

/-- Labels are bound where the depth is their level. -/
theorem bound (h : Deep level d cs ds d') (placed : Placed instrs position pc cs)
    (agrees : ∀ k ≤ ds.length, depth (pc + k) = (ds ++ [d'])[k]?) {l : Label} (mem : .bind l ∈ cs) :
    depth (position l) = some (level l) := by
  induction h generalizing pc with
  | nil => cases mem
  | makeLabel _ ih => exact ih placed.2 agrees ((List.mem_cons.1 mem).resolve_left nofun)
  | bind hl deep ih =>
    rcases List.mem_cons.1 mem with same | mem
    · cases same
      rw [placed.1, hl, ← deep.head]
      exact agrees 0 (Nat.zero_le _)
    · exact ih placed.2 agrees mem
  | add _ _ _ _ _ ih | inc _ ih | jump _ _ _ _ ih | switch _ _ _ ih =>
    exact ih placed.2 (agrees_tail agrees) ((List.mem_cons.1 mem).resolve_left nofun)

/-- Instructions are reached with the depths that are found along the calls. -/
theorem instr (h : Deep level d cs ds d') (placed : Placed instrs position pc cs)
    (agrees : ∀ k ≤ ds.length, depth (pc + k) = (ds ++ [d'])[k]?) {k n : Nat} (found : ds[k]? = some n) :
    ∃ i, instrs[pc + k]? = some i ∧ i.Fits depth position level cs (pc + k) n := by
  induction h generalizing pc k with
  | nil => cases found
  | makeLabel _ ih | bind _ _ ih =>
    obtain ⟨i, hi, fits⟩ := ih placed.2 agrees found
    exact ⟨i, hi, fits.cons⟩
  | @add i d d₁ cs ds d' takes none falls stops deep ih =>
    cases k with
    | zero =>
      cases found
      refine ⟨i, placed.1, takes, by rw [none]; exact nofun, fun goesOn => ?_, fun ends _ => stops ends⟩
      rw [← falls goesOn]
      exact next_depth agrees deep
    | succ k => exact Instr.Fits.later (ih placed.2 (agrees_tail agrees) found)
  | @inc slot delta d cs ds d' deep ih =>
    cases k with
    | zero =>
      cases found
      exact ⟨_, placed.1, Nat.zero_le _, nofun, fun _ => next_depth agrees deep, nofun⟩
    | succ k => exact Instr.Fits.later (ih placed.2 (agrees_tail agrees) found)
  | @jump j l d d₁ cs ds d' takes hl falls deep ih =>
    cases k with
    | zero =>
      cases found
      obtain ⟨offset, stands, leads⟩ := placed.1
      obtain ⟨pops, pushes, offsets, goesOn⟩ := j.effect offset
      refine ⟨_, stands, by rw [pops]; exact takes, fun o mem => ?_, fun h => ?_, fun _ none => ?_⟩
      · rw [offsets, List.mem_singleton] at mem
        subst mem
        refine ⟨l, ⟨_, List.mem_cons_self, List.mem_singleton.2 rfl⟩, leads, ?_⟩
        rw [pops, pushes]
        exact hl
      · rw [pops, pushes, Nat.add_zero, ← falls (goesOn h)]
        exact next_depth agrees deep
      · rw [offsets] at none
        cases none
    | succ k => exact Instr.Fits.later (ih placed.2 (agrees_tail agrees) found)
  | @switch keys labels other d d₁ cs ds d' takes hl deep ih =>
    cases k with
    | zero =>
      cases found
      obtain ⟨i, stands, switches⟩ := placed.1
      obtain ⟨pops, pushes, stops, jumps⟩ := switches.effect
      refine ⟨i, stands, by rw [pops]; exact takes, fun o mem => ?_, fun h => ?_, fun _ none => absurd none jumps⟩
      · obtain ⟨l, mem, leads⟩ := switches.offsets o mem
        refine ⟨l, ⟨_, List.mem_cons_self, mem⟩, leads, ?_⟩
        rw [pops, pushes]
        exact hl l mem
      · rw [stops] at h
        cases h
    | succ k => exact Instr.Fits.later (ih placed.2 (agrees_tail agrees) found)

/-- Every position that has a depth along calls that start and end with an empty stack and are followed by a
return holds an instruction that fits it. -/
theorem fits (h : Deep level 0 cs ds 0) (placed : Placed instrs position 0 (cs ++ [.add .ret])) {n : Nat}
    (found : (ds ++ [0])[pc]? = some n) :
    ∃ i, instrs[pc]? = some i ∧ i.Fits (fun pc => (ds ++ [0])[pc]?) position level cs pc n := by
  obtain ⟨placed, ⟨last, -⟩⟩ := placed_append.1 placed
  rw [Nat.zero_add, ← h.length] at last
  rw [List.getElem?_append] at found
  split at found
  · rw [← Nat.zero_add pc]
    exact h.instr placed (fun k _ => by rw [Nat.zero_add]) found
  · -- Only the return stands behind the calls.
    next outside =>
    obtain ⟨here, same⟩ := List.getElem?_eq_some_iff.1 found
    rw [List.length_singleton] at here
    obtain rfl : pc = ds.length := by omega
    rw [List.getElem_singleton] at same
    exact ⟨.ret, last, Nat.zero_le _, nofun, nofun, fun _ _ => same.symm⟩

/-- Calls that start and end with an empty stack and mention only labels that they bind, followed by a
return, have a consistent assignment of depths where they are placed. -/
theorem consistent (h : Deep level 0 cs ds 0) (placed : Placed instrs position 0 (cs ++ [.add .ret]))
    (bound : ∀ l, Mentioned l cs → .bind l ∈ cs) :
    ∃ bound, Verify.Consistent instrs bound fun pc => (ds ++ [0])[pc]? := by
  have labels (l : Label) (mem : .bind l ∈ cs) : (ds ++ [0])[position l]? = some (level l) :=
    h.bound (placed_append.1 placed).1 (fun k _ => by rw [Nat.zero_add]) mem
  obtain ⟨most, atMost⟩ := exists_bound (ds ++ [0])
  have le {pc n : Nat} (found : (ds ++ [0])[pc]? = some n) : n ≤ most :=
    atMost n (List.mem_of_getElem? found)
  refine ⟨most + 3, h.head, fun found => ?_, fun found hi => ?_, fun found => ?_, fun {pc k i} found hi => ?_,
    fun found hi mem => ?_, fun found hi falls => ?_⟩
  · obtain ⟨i, hi, -⟩ := h.fits placed found
    exact ⟨i, hi⟩
  · obtain ⟨i, hi', fits⟩ := h.fits placed found
    rw [hi] at hi'
    cases hi'
    exact fits.pops
  · exact Nat.le_add_right_of_le (le found)
  · have := le found
    have := i.pushes_le
    omega
  · obtain ⟨i, hi', fits⟩ := h.fits placed found
    rw [hi] at hi'
    cases hi'
    obtain ⟨l, mentioned, leads, levelled⟩ := fits.jump _ mem
    refine ⟨position l, leads.symm, ?_⟩
    rw [← levelled]
    exact labels l (bound l mentioned)
  · obtain ⟨i, hi', fits⟩ := h.fits placed found
    rw [hi] at hi'
    cases hi'
    exact fits.next falls

end Deep

end Stacklet
