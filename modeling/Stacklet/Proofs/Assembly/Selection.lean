import Stacklet.Machine.Run
import Stacklet.Proofs.Assembly.Linking

/-!
# What a switch selects

In assembled code a switch takes an int from the stack and goes on where the label of the first case with
this int is bound, or where the label for all others is (`finish_selects`). It is a table only if that has
no more entries than are permitted, one for each int from the least case to the greatest; otherwise its
keys increase, so that halving finds each of them.
-/

namespace Stacklet

/-! ## The form of a switch -/

/-- Some keys have a least one and a greatest one. -/
structure Spans (keys : List Int32) (low high : Int32) : Prop where
  low_mem : low ∈ keys
  high_mem : high ∈ keys
  between : ∀ key ∈ keys, low ≤ key ∧ key ≤ high

/-- The forms of a switch over keys: a table of permitted size with one entry for each int from the least
key to the greatest, or pairs with increasing keys, the same ones, which may be searched by halving. -/
def Instr.IsSwitchOver (keys : List Int32) : Instr → Prop
  | .tableSwitch low _ offsets => ∃ high, Spans keys low high ∧
    (offsets.size : Int) = high.toInt - low.toInt + 1 ∧ offsets.size ≤ 65536
  | .lookupSwitch _ pairs => Ascending pairs ∧ (∀ key, key ∈ pairs.map (·.1) ↔ key ∈ keys) ∧
    ∀ key, bisect key pairs = pairs.lookup key
  | _ => False

namespace Arm

theorem mem_keys_iff {key : Int32} {arms : List Arm} :
    key ∈ arms.map (·.1) ↔ arms.lookup key ≠ none := by
  rw [Ne, List.lookup_eq_none_iff, List.mem_map]
  constructor
  · rintro ⟨arm, mem, rfl⟩ absent
    exact bne_iff_ne.1 (absent arm mem) rfl
  · intro present
    apply Classical.byContradiction
    intro absent
    exact present fun arm mem => bne_iff_ne.2 fun same => absent ⟨arm, mem, same.symm⟩

/-- Sorting the arms of a switch keeps its keys. -/
theorem mem_keys_sorted (keys : List Int32) (labels : List Label) (key : Int32) :
    key ∈ (sorted keys labels).map (·.1) ↔ key ∈ (keys.zip labels).map (·.1) := by
  rw [mem_keys_iff, mem_keys_iff, lookup_sorted]

/-- Arms with increasing keys span from the first to the last. -/
theorem Increasing.spans {arms : List Arm} {first last : Arm} (h : Increasing arms)
    (hf : arms.head? = some first) (hl : arms.getLast? = some last) :
    Spans (arms.map (·.1)) first.1 last.1 where
  low_mem := List.mem_map_of_mem (List.mem_of_head? hf)
  high_mem := List.mem_map_of_mem (List.mem_of_getLast? hl)
  between key mem := by
    obtain ⟨arm, ha, rfl⟩ := List.mem_map.1 mem
    exact ⟨Int32.le_iff_toInt_le.2 (h.first_le hf ha), Int32.le_iff_toInt_le.2 (h.le_last hl ha)⟩

end Arm

theorem Spans.congr {keys keys' : List Int32} {low high : Int32} (h : Spans keys low high)
    (same : ∀ key, key ∈ keys ↔ key ∈ keys') : Spans keys' low high where
  low_mem := (same low).1 h.low_mem
  high_mem := (same high).1 h.high_mem
  between key mem := h.between key ((same key).2 mem)

namespace Dispatch

variable {arms : List Arm} {other : Label}

theorem size_tableOf (low : Int32) (size : Nat) (arms : List Arm) (other : Label) :
    (tableOf low size arms other).size = size := by
  have folded (entries : Array Label) : (arms.foldl (fun entries arm =>
      entries.setIfInBounds (arm.1.toInt - low.toInt).toNat arm.2) entries).size = entries.size := by
    induction arms generalizing entries with
    | nil => rfl
    | cons arm arms ih => rw [List.foldl_cons, ih, Array.size_setIfInBounds]
  rw [tableOf, folded, Array.size_replicate]

/-- A table is never larger than permitted. -/
theorem size_le_of_ofArms {minDensity : Float} {low : Int32} {entries : Array Label}
    (h : ofArms minDensity arms other = .table low entries) : entries.size ≤ maxTable := by
  unfold ofArms at h
  split at h
  · simp only at h
    split at h
    · next dense =>
      cases h
      rw [isDense, Bool.and_eq_true, decide_eq_true_eq] at dense
      rw [size_tableOf]
      exact dense.1
    · cases h
  · cases h

/-- The instruction of a dispatch has one of the forms of a switch over the keys of its arms. -/
theorem isSwitchOver_instr (minDensity : Float) (h : Arm.Increasing arms) {keys : List Int32}
    (same : ∀ key, key ∈ arms.map (·.1) ↔ key ∈ keys) (offset : Label → Int32) :
    ((ofArms minDensity arms other).instr offset other).IsSwitchOver keys := by
  rcases ofArms_cases minDensity arms other with lookup | ⟨first, last, hf, hl, table⟩
  · have ascending := h.ascending offset
    rw [lookup]
    refine ⟨ascending, fun key => ?_, fun key => bisect_eq_lookup key ascending⟩
    rw [← same, List.map_map]
    rfl
  · have size := size_le_of_ofArms table
    have low := Int32.le_iff_toInt_le.1 ((h.spans hf hl).between _ (h.spans hf hl).high_mem).1
    rw [size_tableOf] at size
    rw [table]
    refine ⟨last.1, (h.spans hf hl).congr same, ?_, ?_⟩
    · rw [Array.size_map, size_tableOf, span]
      omega
    · rw [Array.size_map, size_tableOf]
      exact size

end Dispatch

/-! ## Assembled switches -/

/-- A switch takes an int from the stack and jumps by its offset. -/
theorem Code.advance_switch {code : Code} {pc pos : Nat} {i : Instr} {key offset : Int32} {f : Frame}
    {below : Stack} (at_pc : code.instrs[pc]? = some i) (chosen : i.offsetFor? key = some offset)
    (leads : pc + offset.toInt = pos) (top : f.stack = below.push (.int key)) :
    code.advance pc f = .ok (.running pos { f with stack := below }) := by
  have taken : i.exec f = .ok (.jump offset, { f with stack := below }) := by
    have popped : Exec.popInt f = .ok (key, { f with stack := below }) := by
      have pop : Exec.pop f = .ok (.int key, { f with stack := below }) := by
        simp only [Exec.pop, top, Stack.pop?_push]
      rw [Exec.popInt, bind_of_ok pop]
      rfl
    cases i <;> cases chosen <;> rw [Instr.exec, bind_of_ok popped] <;> rfl
  unfold Code.advance
  simp only [at_pc, Frame.step]
  rw [taken]
  simp only [leads]
  rw [if_neg (by omega)]
  rfl

namespace Assembler

/-- In assembled code a switch goes on, for every int on top of the stack, where the label of its first
case with this int is bound, or else where the label for all others is bound, and has taken the int. It has
one of the forms of a switch over its keys. -/
theorem finish_selects {calls before after : List Call} {keys : List Int32} {labels : List Label}
    {other : Label} {options : AssemblyOptions} {name : String} {maxLocals : UInt16}
    {fields : List FieldDecl} {code : Code}
    (split : calls = before ++ .switch keys labels other :: after)
    (finished : (ofCalls calls).finish options name maxLocals fields = .ok code) :
    (∀ (key : Int32) (f : Frame) (below : Stack), f.stack = below.push (.int key) →
      ∃ pos, (∀ pos', BoundAt calls (((keys.zip labels).lookup key).getD other) pos' ↔ pos' = pos) ∧
        code.advance (codeSize before) f = .ok (.running pos { f with stack := below })) ∧
    ∃ i, code.instrs[codeSize before]? = some i ∧ i.IsSwitchOver ((keys.zip labels).map (·.1)) := by
  obtain ⟨assembled, -⟩ := finish_eq_ok_iff.1 finished
  obtain ⟨binds, refers, instrs⟩ := instrs_eq_ok_iff_linked.1 assembled
  have increasing := Arm.increasing_sorted keys labels
  have standing : code.instrs[codeSize before]? =
      some ((Draft.switch (Arm.sorted keys labels) other).instr options.minTableDensity
        ((ofCalls calls).offsetTo (codeSize before))) := by
    have linked : code.instrs = (Stacklet.linked options.minTableDensity calls).toArray := by rw [← instrs]
    rw [linked]
    exact getElem?_linked options.minTableDensity binds refers split rfl
  refine ⟨fun key f below top => ?_, _, standing,
    Dispatch.isSwitchOver_instr _ increasing (Arm.mem_keys_sorted keys labels) _⟩
  have chosen : ((Dispatch.ofArms options.minTableDensity (Arm.sorted keys labels) other).instr
      ((ofCalls calls).offsetTo (codeSize before)) other).offsetFor? key = _ :=
    Dispatch.offsetFor?_instr options.minTableDensity increasing key
  rw [Arm.lookup_sorted] at chosen
  obtain ⟨pos, leads⟩ := refers before _ after split _ (Call.refersTo_lookup keys labels other key)
  refine ⟨pos, fun pos' => ⟨fun bound => ?_, fun same => same ▸ leads.bound⟩, ?_⟩
  · exact (bound.eq_positionIn binds).trans (leads.bound.eq_positionIn binds).symm
  · refine Code.advance_switch standing chosen ?_ top
    rw [(tracks_ofCalls calls).offsetTo_eq binds leads, leads.toInt_ofInt]
    omega

/-- Calls with a switch over the least int, the greatest one and 5, which stands twice, the second time with
a label that is never made. The last key has no label. -/
def extremes : List Call :=
  [.makeLabel, .makeLabel, .makeLabel, .add (.iconst 7),
    .switch [5, -2147483648, 5, 2147483647, 7] [⟨0⟩, ⟨1⟩, ⟨9⟩, ⟨0⟩] ⟨2⟩,
    .bind ⟨0⟩, .add .ret, .bind ⟨1⟩, .add .ret, .bind ⟨2⟩, .add .ret]

/-- The keys that have labels lead to them, and 7 to where all other ints lead. -/
theorem extremes_selects :
    ∃ code, (ofCalls extremes).finish ⟨0.5, true⟩ "Extremes" 1 [] = .ok code ∧
      (∀ f below, f.stack = below.push (.int 5) →
        code.advance 1 f = .ok (.running 2 { f with stack := below })) ∧
      (∀ f below, f.stack = below.push (.int (-2147483648)) →
        code.advance 1 f = .ok (.running 3 { f with stack := below })) ∧
      (∀ f below, f.stack = below.push (.int 7) →
        code.advance 1 f = .ok (.running 4 { f with stack := below })) ∧
      ∃ i, code.instrs[1]? = some i ∧ i.IsSwitchOver [5, -2147483648, 5, 2147483647] := by
  have assembled : ofCalls extremes =
      ⟨#[.plain (.iconst 7), .switch [(-2147483648, ⟨1⟩), (5, ⟨0⟩), (2147483647, ⟨0⟩)] ⟨2⟩, .plain .ret,
        .plain .ret, .plain .ret], #[some 2, some 3, some 4], none⟩ := by
    have sorted : Arm.sorted [5, -2147483648, 5, 2147483647, 7] [⟨0⟩, ⟨1⟩, ⟨9⟩, ⟨0⟩] =
        [(-2147483648, ⟨1⟩), (5, ⟨0⟩), (2147483647, ⟨0⟩)] := by
      have least : (5 : Int32) ≠ Int32.minValue := by decide
      simp [Arm.sorted, List.mergeSort, List.MergeSort.Internal.splitInTwo, Arm.put, least]
    rw [← sorted]
    rfl
  have succeeds : ((ofCalls extremes).finish ⟨0.5, true⟩ "Extremes" 1 []).toBool = true := by
    rw [assembled]
    decide +kernel
  cases finished : (ofCalls extremes).finish ⟨0.5, true⟩ "Extremes" 1 [] with
  | error e => rw [finished] at succeeds; cases succeeds
  | ok code =>
    let before : List Call := [.makeLabel, .makeLabel, .makeLabel, .add (.iconst 7)]
    have split : extremes = before ++ _ := rfl
    obtain ⟨selects, form⟩ := finish_selects split finished
    have goes (key : Int32) (pos : Nat) (bound : BoundAt extremes
        ((List.lookup key [(5, ⟨0⟩), (-2147483648, ⟨1⟩), (5, ⟨9⟩), (2147483647, ⟨0⟩)]).getD ⟨2⟩) pos)
        (f : Frame) (below : Stack) (top : f.stack = below.push (.int key)) :
        code.advance 1 f = .ok (.running pos { f with stack := below }) := by
      obtain ⟨pos', only, advanced⟩ := selects key f below top
      rw [(only pos).1 bound]
      exact advanced
    exact ⟨code, rfl, goes 5 2 ⟨extremes.take 5, _, rfl, rfl⟩, goes _ 3 ⟨extremes.take 7, _, rfl, rfl⟩,
      goes 7 4 ⟨extremes.take 9, _, rfl, rfl⟩, form⟩

end Assembler

end Stacklet
