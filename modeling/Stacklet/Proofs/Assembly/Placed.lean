import Stacklet.Proofs.Assembly.Dispatch

/-!
# Where calls stand in the code

`Placed instrs position pc calls` says what calls have become: from the position `pc` on the code holds
their instructions one after the other, every label stands for the position at which it was bound, and
jumps and switches lead to the positions of their labels. Whatever is assembled is placed in this way
(`Assembler.instrs_placed`), so that facts on assembled code need not speak of the assembler.
-/

namespace Stacklet

/-- The number of instructions of a call. -/
def Call.width : Call → Nat
  | .makeLabel | .bind _ => 0
  | .add _ | .inc .. | .jump .. | .switch .. => 1

/-- The number of instructions of calls. -/
def codeSize : List Call → Nat
  | [] => 0
  | call :: cs => call.width + codeSize cs

@[simp] theorem codeSize_nil : codeSize [] = 0 := rfl

@[simp] theorem codeSize_cons (call : Call) (cs : List Call) :
    codeSize (call :: cs) = call.width + codeSize cs := rfl

@[simp] theorem codeSize_append (cs cs' : List Call) : codeSize (cs ++ cs') = codeSize cs + codeSize cs' := by
  induction cs with
  | nil => rw [List.nil_append, codeSize_nil, Nat.zero_add]
  | cons call cs ih => rw [List.cons_append, codeSize_cons, codeSize_cons, ih, Nat.add_assoc]

/-- An instruction that switches: it jumps for every int to its label and has no offsets but to labels. -/
structure Instr.Switches (i : Instr) (position : Label → Nat) (pc : Nat) (keys : List Int32)
    (labels : List Label) (other : Label) : Prop where
  chosen : ∀ key, ∃ offset, i.offsetFor? key = some offset ∧
    pc + offset.toInt = position (((keys.zip labels).lookup key).getD other)
  offsets : ∀ offset ∈ i.offsets, ∃ l ∈ other :: labels, pc + offset.toInt = position l

/-- What code holds at a position for a call. -/
def Call.Stands (instrs : Array Instr) (position : Label → Nat) (pc : Nat) : Call → Prop
  | .makeLabel => True
  | .bind l => position l = pc
  | .add i => instrs[pc]? = some i
  | .inc slot delta => instrs[pc]? = some (.inc slot delta)
  | .jump j l => ∃ offset, instrs[pc]? = some (j.instr offset) ∧ pc + offset.toInt = position l
  | .switch keys labels other => ∃ i, instrs[pc]? = some i ∧ i.Switches position pc keys labels other

/-- Code that holds from a position on what calls have become. -/
def Placed (instrs : Array Instr) (position : Label → Nat) : Nat → List Call → Prop
  | _, [] => True
  | pc, call :: rest => call.Stands instrs position pc ∧ Placed instrs position (pc + call.width) rest

theorem placed_append {instrs : Array Instr} {position : Label → Nat} {pc : Nat} {cs cs' : List Call} :
    Placed instrs position pc (cs ++ cs') ↔
      Placed instrs position pc cs ∧ Placed instrs position (pc + codeSize cs) cs' := by
  induction cs generalizing pc with
  | nil => exact ⟨fun h => ⟨trivial, h⟩, fun h => h.2⟩
  | cons call cs ih => rw [List.cons_append, Placed, Placed, ih, codeSize_cons, Nat.add_assoc, and_assoc]

/-! ## The assembler -/

/-- What is drafted for a call. -/
def Call.draft? : Call → Option Draft
  | .makeLabel | .bind _ => none
  | .add i => some (.plain i)
  | .inc slot delta => some (.plain (.inc slot delta))
  | .jump j l => some (.jump j l)
  | .switch keys labels other => some (.switch (Arm.sorted keys labels) other)

namespace Assembler

/-- The position of a label that is bound. -/
def positionOf (a : Assembler) (l : Label) : Nat := (a.labels[l.id]?).join.getD 0

/-- An assembler that has all that another one has. -/
structure Extends (a b : Assembler) : Prop where
  drafts : ∀ {k : Nat} {d : Draft}, a.drafts[k]? = some d → b.drafts[k]? = some d
  labels : ∀ {id pos : Nat}, a.labels[id]? = some (some pos) → b.labels[id]? = some (some pos)
  faultless : b.misbound = none → a.misbound = none

/-- What an assembler has for a call at a position. -/
structure Holds (a : Assembler) (pc : Nat) (call : Call) : Prop where
  draft : ∀ {d : Draft}, call.draft? = some d → a.drafts[pc]? = some d
  bound : ∀ {l : Label}, call = .bind l → a.labels[l.id]? = some (some pc)

variable {a b c : Assembler}

theorem Extends.refl (a : Assembler) : a.Extends a := ⟨id, id, id⟩

theorem Extends.trans (h : a.Extends b) (h' : b.Extends c) : a.Extends c :=
  ⟨fun hd => h'.drafts (h.drafts hd), fun hl => h'.labels (h.labels hl),
    fun none => h.faultless (h'.faultless none)⟩

theorem Extends.holds {pc : Nat} {call : Call} (h : a.Extends b) (hc : a.Holds pc call) :
    b.Holds pc call :=
  ⟨fun hd => h.drafts (hc.draft hd), fun hl => h.labels (hc.bound hl)⟩

theorem extends_add (a : Assembler) (d : Draft) : a.Extends (a.add d) where
  drafts hd := by
    obtain ⟨inside, -⟩ := Array.getElem?_eq_some_iff.1 hd
    rw [add, Array.getElem?_push_lt inside]
    rwa [← Array.getElem?_eq_getElem inside]
  labels := id
  faultless := id

theorem extends_fail (a : Assembler) (e : AssembleError) : a.Extends (a.fail e) where
  drafts := id
  labels := id
  faultless none := by
    rw [fail] at none
    cases hm : a.misbound with
    | none => rfl
    | some e' => rw [hm] at none; cases none

/-- A call adds to what there is, and takes back nothing. -/
theorem extends_call (a : Assembler) (call : Call) : a.Extends (a.call call) := by
  cases call with
  | makeLabel =>
    refine ⟨id, fun hl => ?_, id⟩
    obtain ⟨inside, -⟩ := Array.getElem?_eq_some_iff.1 hl
    rw [Assembler.call, Array.getElem?_push_lt inside]
    rwa [← Array.getElem?_eq_getElem inside]
  | bind l =>
    change a.Extends (a.bind l)
    unfold Assembler.bind
    split
    · next unbound =>
      refine ⟨id, fun {id pos} hl => ?_, fun none => none⟩
      have ne : l.id ≠ id := by
        rintro rfl
        rw [unbound] at hl
        cases hl
      rw [Array.getElem?_setIfInBounds_ne ne]
      exact hl
    · exact extends_fail a _
    · exact extends_fail a _
  | add | inc | jump | switch => exact extends_add a _

theorem extends_foldl (a : Assembler) (cs : List Call) : a.Extends (cs.foldl call a) := by
  induction cs generalizing a with
  | nil => exact .refl a
  | cons call cs ih => exact (extends_call a call).trans (ih (a.call call))

theorem position_call (a : Assembler) (call : Call) : (a.call call).position = a.position + call.width := by
  cases call with
  | makeLabel => rfl
  | bind l =>
    change (a.bind l).position = a.position
    unfold Assembler.bind
    split <;> rfl
  | add | inc | jump | switch => exact Array.size_push _

theorem position_foldl (a : Assembler) (cs : List Call) :
    (cs.foldl call a).position = a.position + codeSize cs := by
  induction cs generalizing a with
  | nil => rfl
  | cons call cs ih => rw [List.foldl_cons, ih, position_call, codeSize_cons, Nat.add_assoc]

theorem holds_add (a : Assembler) (d : Draft) : (a.add d).drafts[a.position]? = some d :=
  Array.getElem?_push_size

theorem holds_call {a : Assembler} {call : Call} (faultless : (a.call call).misbound = none) :
    (a.call call).Holds a.position call := by
  cases call with
  | makeLabel => exact ⟨nofun, nofun⟩
  | bind l =>
    refine ⟨nofun, fun {l'} same => ?_⟩
    cases same
    change (a.bind l).misbound = none at faultless
    change (a.bind l).labels[l.id]? = _
    unfold Assembler.bind at *
    split at *
    · next unbound =>
      obtain ⟨inside, -⟩ := Array.getElem?_eq_some_iff.1 unbound
      exact Array.getElem?_setIfInBounds_self_of_lt inside
    all_goals
      rw [fail] at faultless
      cases hm : a.misbound <;> rw [hm] at faultless <;> cases faultless
  | add | inc | jump | switch =>
    refine ⟨fun hd => ?_, nofun⟩
    cases hd
    exact holds_add a _

/-- What an assembler has for calls from a position on. -/
def HoldsAll (a : Assembler) : Nat → List Call → Prop
  | _, [] => True
  | pc, call :: rest => a.Holds pc call ∧ a.HoldsAll (pc + call.width) rest

/-- An assembler that finds nothing wrong has all that it was called for. -/
theorem holdsAll_foldl {a : Assembler} {cs : List Call} (faultless : (cs.foldl call a).misbound = none) :
    (cs.foldl call a).HoldsAll a.position cs := by
  induction cs generalizing a with
  | nil => trivial
  | cons call cs ih =>
    have later := extends_foldl (a.call call) cs
    refine ⟨later.holds (holds_call (later.faultless faultless)), ?_⟩
    rw [← position_call]
    exact ih faultless

theorem locate_eq_ok_iff {l : Label} {pos : Nat} :
    a.locate l = .ok pos ↔ a.labels[l.id]? = some (some pos) ∧ pos < a.position := by
  unfold locate
  cases a.labels[l.id]? with
  | none => exact ⟨nofun, nofun⟩
  | some entry =>
    cases entry with
    | none => exact ⟨nofun, nofun⟩
    | some pos' =>
      simp only
      constructor
      · intro h
        split at h
        · next inside =>
          cases h
          exact ⟨rfl, inside⟩
        · cases h
      · rintro ⟨same, inside⟩
        cases same
        exact if_pos inside

/-- A label has an offset from a position if it is bound to an instruction that is not too far away. -/
theorem offset_eq_ok_iff {pc : Nat} {l : Label} {offset : Int32} :
    a.offset pc l = .ok offset ↔
      ∃ pos : Nat, a.labels[l.id]? = some (some pos) ∧ pos < a.position ∧
        (-2147483648 ≤ (pos : Int) - pc ∧ (pos : Int) - pc ≤ 2147483647) ∧
        offset = Int32.ofInt (pos - pc) := by
  constructor
  · intro h
    obtain ⟨pos, located, h⟩ := except_bind_eq_ok h
    obtain ⟨found, inside⟩ := locate_eq_ok_iff.1 located
    simp only at h
    split at h
    · cases h
    · split at h
      · cases h
      · cases h
        exact ⟨pos, found, inside, by omega, rfl⟩
  · rintro ⟨pos, found, inside, fits, rfl⟩
    rw [Assembler.offset, locate_eq_ok_iff.2 ⟨found, inside⟩]
    simp only [Bind.bind, Except.bind]
    rw [if_neg (by omega), if_neg (by omega)]
    rfl

/-- An offset leads to where its label is bound. -/
theorem offset_eq_ok {pc : Nat} {l : Label} {offset : Int32} (h : a.offset pc l = .ok offset) :
    pc + offset.toInt = a.positionOf l := by
  obtain ⟨pos, found, -, fits, rfl⟩ := offset_eq_ok_iff.1 h
  have here : a.positionOf l = pos := by
    rw [positionOf, found]
    rfl
  rw [here, Int32.toInt_ofInt_of_le (by omega) (by omega)]
  omega

/-- The instruction that a draft is resolved to is what its call asks for. -/
theorem stands_of_resolve {minDensity : Float} {instrs : Array Instr} {pc : Nat} {call : Call}
    (holds : a.Holds pc call)
    (resolved : ∀ d, a.drafts[pc]? = some d →
      ∃ i, instrs[pc]? = some i ∧ a.resolve minDensity pc d = .ok i) :
    call.Stands instrs a.positionOf pc := by
  cases call with
  | makeLabel => trivial
  | bind l =>
    change a.positionOf l = pc
    rw [positionOf, holds.bound rfl]
    rfl
  | add i | inc slot delta =>
    obtain ⟨i', found, h⟩ := resolved _ (holds.draft rfl)
    cases h
    exact found
  | jump j l =>
    obtain ⟨i, found, h⟩ := resolved _ (holds.draft rfl)
    obtain ⟨offset, ho, h⟩ := except_bind_eq_ok h
    cases h
    exact ⟨offset, found, offset_eq_ok ho⟩
  | switch keys labels other =>
    obtain ⟨i, found, h⟩ := resolved _ (holds.draft rfl)
    obtain ⟨chosen, offsets⟩ := resolve_switch (Arm.increasing_sorted keys labels) h
    refine ⟨i, found, fun key => ?_, fun offset mem => ?_⟩
    · obtain ⟨offset, hc, ho⟩ := chosen key
      rw [Arm.lookup_sorted] at ho
      exact ⟨offset, hc, offset_eq_ok ho⟩
    · obtain ⟨l, hl, ho⟩ := offsets offset mem
      refine ⟨l, ?_, offset_eq_ok ho⟩
      rcases List.mem_cons.1 hl with rfl | hl
      · exact List.mem_cons_self
      · obtain ⟨arm, ha, rfl⟩ := List.mem_map.1 hl
        exact List.mem_cons_of_mem _ (List.of_mem_zip (Arm.sorted_subset ha)).2

/-- What is assembled from calls holds them from the start on. -/
theorem instrs_placed {cs : List Call} {minDensity : Float} {instrs : List Instr}
    (h : (ofCalls cs).instrs minDensity = .ok instrs) :
    Placed instrs.toArray (ofCalls cs).positionOf 0 cs ∧ instrs.length = codeSize cs := by
  unfold Assembler.instrs at h
  cases faultless : (ofCalls cs).misbound with
  | some e => rw [faultless] at h; cases h
  | none =>
    rw [faultless] at h
    have all : (ofCalls cs).HoldsAll 0 cs := holdsAll_foldl faultless
    have resolved (pc : Nat) (d : Draft) (hd : (ofCalls cs).drafts[pc]? = some d) :
        ∃ i, instrs.toArray[pc]? = some i ∧ (ofCalls cs).resolve minDensity pc d = .ok i := by
      have listed : (ofCalls cs).drafts.toList.zipIdx[pc]? = some (d, pc) := by
        rw [List.getElem?_zipIdx, Array.getElem?_toList, hd, Nat.zero_add]
        rfl
      obtain ⟨i, found, hr⟩ := getElem?_of_mapM h listed
      exact ⟨i, by rw [List.getElem?_toArray]; exact found, hr⟩
    have placed (rest : List Call) (pc : Nat) (held : (ofCalls cs).HoldsAll pc rest) :
        Placed instrs.toArray (ofCalls cs).positionOf pc rest := by
      induction rest generalizing pc with
      | nil => trivial
      | cons call rest ih => exact ⟨stands_of_resolve held.1 (resolved pc), ih _ held.2⟩
    refine ⟨placed cs 0 all, ?_⟩
    rw [length_of_mapM h, List.length_zipIdx, Array.length_toList]
    exact (position_foldl empty cs).trans (Nat.zero_add _)

/-- Finished code holds its calls, with the locals and fields that it is given. -/
theorem finish_placed {cs : List Call} {options : AssemblyOptions} {name : String} {maxLocals : UInt16}
    {fields : List FieldDecl} {code : Code}
    (h : (ofCalls cs).finish options name maxLocals fields = .ok code) :
    Placed code.instrs (ofCalls cs).positionOf 0 cs ∧ code.maxLocals = maxLocals ∧ code.fields = fields := by
  obtain ⟨instrs, assembled, verified⟩ := except_bind_eq_ok h
  have placed := (instrs_placed assembled).1
  simp only at verified
  split at verified
  · split at verified
    · cases verified
      exact ⟨placed, rfl, rfl⟩
    · cases verified
  · cases verified
    exact ⟨placed, rfl, rfl⟩

end Assembler

end Stacklet
