import Stacklet.Proofs.Assembly.Linking

/-!
# Relocation

Calls that are made behind others find labels made and instructions added: their labels get later numbers
(`Call.shift`), and all they bind is bound further on. Neither shows in their instructions. A switch is arranged by
its keys, whatever its labels are (`Call.instr?_shift`), and both ends of an offset move by the same distance
(`linkedFrom_shift`). So calls that assemble, made behind others that assemble, assemble to the same instructions
behind those of the others (`instrs_append_shift`).
-/

namespace Stacklet

/-! ## Switches with other labels -/

namespace Arm

/-- An arm that leads to another label. -/
def relabel (f : Label → Label) (arm : Arm) : Arm := (arm.1, f arm.2)

variable (f : Label → Label)

theorem put_map (arm : Arm) (arms : List Arm) :
    put (arm.relabel f) (arms.map (relabel f)) = (put arm arms).map (relabel f) := by
  cases arms with
  | nil => rfl
  | cons next rest => by_cases same : arm.1 = next.1 <;> simp [put, relabel, same]

theorem foldr_put_map (arms : List Arm) :
    (arms.map (relabel f)).foldr put [] = (arms.foldr put []).map (relabel f) := by
  induction arms with
  | nil => rfl
  | cons arm arms ih => rw [List.map_cons, List.foldr_cons, ih, put_map, List.foldr_cons]

/-- The arms are sorted by their keys alone. -/
theorem sorted_map (keys : List Int32) (labels : List Label) :
    sorted keys (labels.map f) = (sorted keys labels).map (relabel f) := by
  have paired : keys.zip (labels.map f) = (keys.zip labels).map (relabel f) := List.zip_map_right ..
  have ordered : ((keys.zip labels).mergeSort le).map (relabel f) =
      ((keys.zip labels).map (relabel f)).mergeSort le := by
    apply List.map_mergeSort
    intro a _ b _
    rfl
  rw [sorted, sorted, ← foldr_put_map, ordered, paired]

end Arm

namespace Dispatch

variable (f : Label → Label)

theorem tableOf_map (low : Int32) (size : Nat) (arms : List Arm) (other : Label) :
    tableOf low size (arms.map (Arm.relabel f)) (f other) = (tableOf low size arms other).map f := by
  have folded (entries : Array Label) :
      (arms.map (Arm.relabel f)).foldl
          (fun entries arm => entries.setIfInBounds (arm.1.toInt - low.toInt).toNat arm.2) (entries.map f) =
        (arms.foldl (fun entries arm => entries.setIfInBounds (arm.1.toInt - low.toInt).toNat arm.2)
          entries).map f := by
    induction arms generalizing entries with
    | nil => rfl
    | cons arm arms ih =>
      rw [List.map_cons, List.foldl_cons, List.foldl_cons, ← ih, Array.map_setIfInBounds]
      rfl
  rw [tableOf, tableOf, ← folded, Array.map_replicate]

/-- Whether arms become a table does not depend on their labels, and neither does where the table has which arm. -/
theorem instr_ofArms_map (minDensity : Float) (offset : Label → Int32) (arms : List Arm) (other : Label) :
    (ofArms minDensity (arms.map (Arm.relabel f)) (f other)).instr offset (f other) =
      (ofArms minDensity arms other).instr (fun l => offset (f l)) other := by
  unfold ofArms
  rw [List.head?_map, List.getLast?_map, List.length_map]
  cases arms.head? with
  | none => simp [instr, Arm.relabel]
  | some first =>
    cases arms.getLast? with
    | none => simp [instr, Arm.relabel]
    | some last =>
      simp only [Option.map_some]
      change Dispatch.instr (if isDense minDensity arms.length (span first last) then
        .table first.1 (tableOf first.1 (span first last) (arms.map (Arm.relabel f)) (f other)) else _) _ _ = _
      split
      · rw [tableOf_map, instr, instr, Array.map_map]
        rfl
      · simp [instr, Arm.relabel]

end Dispatch

/-! ## Calls with later labels -/

/-- The label made `k` labels later. -/
def Label.shift (k : Nat) (l : Label) : Label := ⟨k + l.id⟩

theorem Label.shift_injective {k : Nat} {l l' : Label} (h : l.shift k = l'.shift k) : l = l' := by
  have same : k + l.id = k + l'.id := congrArg Label.id h
  exact congrArg Label.mk (Nat.add_left_cancel same)

/-- The call with all labels made `k` labels later. -/
def Call.shift (k : Nat) : Call → Call
  | .makeLabel => .makeLabel
  | .bind l => .bind (l.shift k)
  | .add i => .add i
  | .inc slot delta => .inc slot delta
  | .jump j target => .jump j (target.shift k)
  | .switch keys labels other => .switch keys (labels.map (.shift k)) (other.shift k)

namespace Call

variable {k : Nat} {l : Label}

theorem width_shift (call : Call) : (call.shift k).width = call.width := by cases call <;> rfl

theorem labelsMade_shift (call : Call) : (call.shift k).labelsMade = call.labelsMade := by cases call <;> rfl

theorem shift_eq_bind {call : Call} (h : call.shift k = .bind l) : ∃ l₀, call = .bind l₀ ∧ l = l₀.shift k := by
  cases call with
  | bind l₀ =>
    cases h
    exact ⟨l₀, rfl, rfl⟩
  | makeLabel | add | inc | jump | switch => cases h

/-- The labels that a call refers to are made later with it. -/
theorem refersTo_shift {call : Call} (h : (call.shift k).RefersTo l) : ∃ l₀, call.RefersTo l₀ ∧ l = l₀.shift k := by
  cases call with
  | makeLabel | bind | add | inc => cases h
  | jump j target => exact ⟨target, rfl, h⟩
  | switch keys labels other =>
    rcases h with rfl | ⟨key, found⟩
    · exact ⟨other, .inl rfl, rfl⟩
    · have renamed : (keys.zip (labels.map (Label.shift k))).lookup key =
          ((keys.zip labels).lookup key).map (Label.shift k) := by
        rw [List.zip_map_right]
        exact lookup_map_snd _ _ _
      rw [renamed] at found
      obtain ⟨l₀, found₀, rfl⟩ := Option.map_eq_some_iff.1 found
      exact ⟨l₀, .inr ⟨key, found₀⟩, rfl⟩

theorem instr?_shift (minDensity : Float) (offset : Label → Int32) (call : Call) :
    (call.shift k).instr? minDensity offset = call.instr? minDensity fun l => offset (l.shift k) := by
  cases call with
  | makeLabel | bind | add | inc | jump => rfl
  | switch keys labels other =>
    rw [shift, instr?, Arm.sorted_map, Dispatch.instr_ofArms_map, instr?]

end Call

section

variable {k : Nat} (calls : List Call)

theorem labelsMade_map_shift : labelsMade (calls.map (.shift k)) = labelsMade calls := by
  induction calls with
  | nil => rfl
  | cons call calls ih => rw [List.map_cons, labelsMade, ih, call.labelsMade_shift, labelsMade]

theorem codeSize_map_shift : codeSize (calls.map (.shift k)) = codeSize calls := by
  induction calls with
  | nil => rfl
  | cons call calls ih => rw [List.map_cons, codeSize_cons, ih, call.width_shift, codeSize_cons]

end

/-- Calls that have nothing to do with labels are the same later. -/
theorem shift_of_isPlain {k : Nat} {calls : List Call} (plain : calls.all Call.isPlain) :
    labelsMade calls = 0 ∧ calls.map (.shift k) = calls := by
  induction calls with
  | nil => exact ⟨rfl, rfl⟩
  | cons call rest ih =>
    rw [List.all_cons, Bool.and_eq_true] at plain
    obtain ⟨made, same⟩ := ih plain.2
    rw [labelsMade, made, List.map_cons, same]
    cases call with
    | add | inc => exact ⟨rfl, rfl⟩
    | makeLabel | bind | jump | switch => cases plain.1

/-! ## Calls behind other calls -/

section

variable {first second : List Call} {k pc pos : Nat} {l : Label}

theorem BoundAt.append_right (h : BoundAt first l pos) : BoundAt (first ++ second) l pos := by
  obtain ⟨before, after, rfl, rfl⟩ := h
  exact ⟨before, after ++ second, by rw [List.append_assoc, List.cons_append], rfl⟩

/-- An instruction at the end binds nothing. -/
theorem BoundAt.of_snoc_add {last : Instr} (h : BoundAt (first ++ [.add last]) l pos) : BoundAt first l pos := by
  rcases boundAt_snoc.1 h with bound | ⟨closing, -⟩
  · exact bound
  · cases closing

theorem BoundAt.append_shift (h : BoundAt second l pos) :
    BoundAt (first ++ second.map (.shift k)) (l.shift k) (codeSize first + pos) := by
  obtain ⟨before, after, rfl, rfl⟩ := h
  refine ⟨first ++ before.map (.shift k), after.map (.shift k), ?_, ?_⟩
  · rw [List.map_append, List.map_cons, List.append_assoc]
    rfl
  · rw [codeSize_append, codeSize_map_shift]

/-- One of calls behind others stands among the others or is one of the calls behind them. -/
theorem append_shift_eq_split {before after : List Call} {call : Call}
    (h : first ++ second.map (.shift k) = before ++ call :: after) :
    (∃ after', first = before ++ call :: after') ∨
      ∃ before' call' after', second = before' ++ call' :: after' ∧
        before = first ++ before'.map (.shift k) ∧ call = call'.shift k := by
  rcases List.append_eq_append_iff.1 h with ⟨rest, rfl, behind⟩ | ⟨rest, rfl, behind⟩
  · obtain ⟨before', tail, rfl, rfl, tailed⟩ := List.map_eq_append_iff.1 behind
    obtain ⟨call', after', rfl, rfl, -⟩ := List.map_eq_cons_iff.1 tailed
    exact .inr ⟨before', call', after', rfl, rfl, rfl⟩
  · cases rest with
    | nil =>
      obtain ⟨call', after', rfl, rfl, -⟩ := List.map_eq_cons_iff.1 behind.symm
      exact .inr ⟨[], call', after', rfl, by simp, rfl⟩
    | cons call' rest =>
      cases behind
      exact .inl ⟨rest, rfl⟩

/-- Labels of the second calls are none of those that the first ones bind, which are made before. -/
theorem BindsWell.shift_not_mem (h : BindsWell first) : .bind (l.shift (labelsMade first)) ∉ first := by
  intro mem
  obtain ⟨before, after, split⟩ := List.mem_iff_append.1 mem
  have made : labelsMade first + l.id < labelsMade before := (h before after _ split).1
  rw [split, labelsMade_append] at made
  omega

theorem BindsWell.append_shift (front : BindsWell first) (back : BindsWell second) :
    BindsWell (first ++ second.map (.shift (labelsMade first))) := by
  intro before after l split
  rcases append_shift_eq_split split with ⟨after', part⟩ | ⟨before', call', after', part, rfl, same⟩
  · exact front before after' l part
  · obtain ⟨l₀, rfl, rfl⟩ := Call.shift_eq_bind same.symm
    obtain ⟨made, fresh⟩ := back before' after' l₀ part
    constructor
    · rw [labelsMade_append, labelsMade_map_shift]
      exact Nat.add_lt_add_left made _
    · intro mem
      rcases List.mem_append.1 mem with mem | mem
      · exact front.shift_not_mem mem
      · obtain ⟨call, mem, bound⟩ := List.mem_map.1 mem
        obtain ⟨l₁, rfl, same⟩ := Call.shift_eq_bind bound
        rw [Label.shift_injective same] at fresh
        exact fresh mem

/-- A label that leads somewhere when the first calls are closed leads there when others follow instead. -/
theorem LeadsTo.append_shift_left {last : Instr} (h : LeadsTo (first ++ [.add last]) pc l pos)
    (nonempty : 0 < codeSize second) : LeadsTo (first ++ second.map (.shift k)) pc l pos := by
  obtain ⟨made, bound, inside, fits⟩ := h
  rw [labelsMade_snoc] at made
  rw [codeSize_append] at inside
  have inside : pos < codeSize first + 1 := inside
  refine ⟨?_, bound.of_snoc_add.append_right, ?_, fits⟩
  · rw [labelsMade_append]
    exact Nat.lt_add_right _ made
  · rw [codeSize_append, codeSize_map_shift]
    omega

theorem LeadsTo.append_shift_right (h : LeadsTo second pc l pos) :
    LeadsTo (first ++ second.map (.shift (labelsMade first))) (codeSize first + pc) (l.shift (labelsMade first))
      (codeSize first + pos) := by
  obtain ⟨made, bound, inside, fits⟩ := h
  refine ⟨?_, bound.append_shift, ?_, by omega⟩
  · rw [labelsMade_append, labelsMade_map_shift]
    exact Nat.add_lt_add_left made _
  · rw [codeSize_append, codeSize_map_shift]
    omega

theorem RefersWell.append_shift {last : Instr} (front : RefersWell (first ++ [.add last]))
    (back : RefersWell second) (nonempty : 0 < codeSize second) :
    RefersWell (first ++ second.map (.shift (labelsMade first))) := by
  intro before call after split l refers
  rcases append_shift_eq_split split with ⟨after', part⟩ | ⟨before', call', after', part, rfl, rfl⟩
  · have closed : first ++ [.add last] = before ++ call :: (after' ++ [.add last]) :=
      snoc_eq_split_iff.2 (.inl ⟨after', part, rfl⟩)
    obtain ⟨pos, leads⟩ := front before call _ closed l refers
    exact ⟨pos, leads.append_shift_left nonempty⟩
  · obtain ⟨l₀, refers', rfl⟩ := Call.refersTo_shift refers
    obtain ⟨pos, leads⟩ := back before' call' after' part l₀ refers'
    rw [codeSize_append, codeSize_map_shift]
    exact ⟨_, leads.append_shift_right⟩

end

/-! ## Their instructions -/

section

variable {minDensity : Float} {position position' : Label → Nat} {first second calls : List Call}

theorem linkedFrom_append (pc : Nat) :
    linkedFrom minDensity position pc (first ++ second) =
      linkedFrom minDensity position pc first ++ linkedFrom minDensity position (pc + codeSize first) second := by
  induction first generalizing pc with
  | nil => rfl
  | cons call rest ih =>
    rw [List.cons_append, linkedFrom, ih, linkedFrom, List.append_assoc, codeSize_cons, Nat.add_assoc]

/-- An instruction depends on the offsets to the labels that its call refers to only. -/
theorem Call.instr?_congr {call : Call} {offset offset' : Label → Int32}
    (same : ∀ l, call.RefersTo l → offset l = offset' l) :
    call.instr? minDensity offset = call.instr? minDensity offset' := by
  rw [instr?_eq, instr?_eq]
  cases drafted : call.draft? with
  | none => rfl
  | some d =>
    have mentioned : ∀ l ∈ d.mentions, offset l = offset' l := by
      intro l mem
      exact same l ((mem_mentions_iff drafted).1 mem)
    rw [Option.map_some, Option.map_some, Draft.instr_congr minDensity mentioned]

theorem linkedFrom_congr (same : ∀ call ∈ calls, ∀ l, call.RefersTo l → position l = position' l) (pc : Nat) :
    linkedFrom minDensity position pc calls = linkedFrom minDensity position' pc calls := by
  induction calls generalizing pc with
  | nil => rfl
  | cons call rest ih =>
    rw [List.forall_mem_cons] at same
    rw [linkedFrom, linkedFrom, ih same.2]
    congr 2
    apply Call.instr?_congr
    intro l refers
    rw [same.1 l refers]

/-- Calls that are made later, with all that they refer to moved along, have the same instructions. -/
theorem linkedFrom_shift {k distance : Nat}
    (moved : ∀ call ∈ calls, ∀ l, call.RefersTo l → position' (l.shift k) = distance + position l) (pc : Nat) :
    linkedFrom minDensity position' (distance + pc) (calls.map (.shift k)) =
      linkedFrom minDensity position pc calls := by
  induction calls generalizing pc with
  | nil => rfl
  | cons call rest ih =>
    rw [List.forall_mem_cons] at moved
    rw [List.map_cons, linkedFrom, linkedFrom, call.width_shift, Nat.add_assoc, ih moved.2, Call.instr?_shift]
    congr 2
    apply Call.instr?_congr
    intro l refers
    have offsets : ((position' (l.shift k) : Nat) : Int) - (distance + pc : Nat) = position l - pc := by
      rw [moved.1 l refers]
      omega
    rw [offsets]

theorem RefersWell.boundAt (refers : RefersWell calls) {call : Call} (mem : call ∈ calls) {l : Label}
    (referred : call.RefersTo l) : ∃ pos, BoundAt calls l pos := by
  obtain ⟨before, after, split⟩ := List.mem_iff_append.1 mem
  obtain ⟨pos, leads⟩ := refers before call after split l referred
  exact ⟨pos, leads.bound⟩

/-- Calls behind others have the instructions that they have alone, and so have the others. -/
theorem linked_append_shift {last : Instr} (binds : BindsWell first) (binds' : BindsWell second)
    (refers : RefersWell (first ++ [.add last])) (refers' : RefersWell second) :
    ∃ front, linked minDensity (first ++ [.add last]) = front ++ [last] ∧
      linked minDensity (first ++ second.map (.shift (labelsMade first))) = front ++ linked minDensity second := by
  have closed : BindsWell (first ++ [.add last]) := bindsWell_snoc.2 ⟨binds, fun l same => by cases same⟩
  have joint := binds.append_shift binds'
  refine ⟨linkedFrom minDensity (positionIn (first ++ [.add last])) 0 first, ?_, ?_⟩
  · rw [linked, linkedFrom_append]
    rfl
  · rw [linked, linkedFrom_append, Nat.zero_add]
    congr 1
    · apply linkedFrom_congr
      intro call mem l referred
      obtain ⟨pos, bound⟩ := refers.boundAt (List.mem_append_left _ mem) referred
      rw [← bound.eq_positionIn closed]
      exact (bound.of_snoc_add.append_right.eq_positionIn joint).symm
    · refine linkedFrom_shift ?_ 0
      intro call mem l referred
      obtain ⟨pos, bound⟩ := refers'.boundAt mem referred
      rw [← bound.eq_positionIn binds']
      exact (bound.append_shift.eq_positionIn joint).symm

end

/-- Calls that assemble, made in place of the instruction that closes others, assemble to the same instructions
behind those of the others. -/
theorem Assembler.instrs_append_shift {minDensity : Float} {first second : List Call} {last : Instr}
    {instrs instrs' : List Instr} (assembled : (ofCalls (first ++ [.add last])).instrs minDensity = .ok instrs)
    (assembled' : (ofCalls second).instrs minDensity = .ok instrs') (nonempty : 0 < codeSize second) :
    ∃ front, instrs = front ++ [last] ∧
      (ofCalls (first ++ second.map (.shift (labelsMade first)))).instrs minDensity = .ok (front ++ instrs') := by
  obtain ⟨closed, refers, rfl⟩ := instrs_eq_ok_iff_linked.1 assembled
  obtain ⟨binds', refers', rfl⟩ := instrs_eq_ok_iff_linked.1 assembled'
  have binds := (bindsWell_snoc.1 closed).1
  obtain ⟨front, alone, joint⟩ := linked_append_shift binds binds' refers refers'
  refine ⟨front, alone, instrs_eq_ok_iff_linked.2 ⟨?_, ?_, joint.symm⟩⟩
  · exact binds.append_shift binds'
  · exact refers.append_shift refers' nonempty

end Stacklet
