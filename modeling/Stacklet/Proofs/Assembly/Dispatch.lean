import Stacklet.Assembly.Assembler
import Stacklet.Machine.Frame
import Stacklet.Proofs.Machine.Bisect
import Stacklet.Proofs.Sequence

/-!
# Where a switch leads

Sorting the arms of a switch and leaving out repeated keys changes the label of no key
(`lookup_sorted`), and neither does putting them into a table (`getElem?_tableOf`) or searching them by
halving, as their keys increase. So the instruction of a switch jumps, for every int, by the offset to the
label of the first case with this key, or to the label for all others (`resolve_switch`), whether it is a
table or not. An instruction is resolved exactly
when there is an offset to each label that it mentions (`resolve_eq_ok_iff`).
-/

namespace Stacklet

namespace Arm

variable {k : Int32}

theorem lookup_eq_head_filter (arms : List Arm) :
    arms.lookup k = ((arms.filter (k == ·.1)).head?).map (·.2) := by
  induction arms with
  | nil => rfl
  | cons arm arms ih =>
    obtain ⟨key, l⟩ := arm
    rw [List.lookup_cons, List.filter_cons]
    cases k == key with
    | true => rfl
    | false => exact ih

/-- The order by which arms are sorted. -/
abbrev le (a b : Arm) : Bool := decide (a.1 ≤ b.1)

theorem le_trans (a b c : Arm) (h : a.le b) (h' : b.le c) : a.le c := by
  rw [decide_eq_true_eq] at *
  exact Int32.le_trans h h'

theorem le_total (a b : Arm) : (a.le b || b.le a) = true := by
  rw [Bool.or_eq_true, decide_eq_true_eq, decide_eq_true_eq]
  exact Int32.le_total a.1 b.1

/-- Sorting keeps the order of the arms with one key. -/
theorem filter_mergeSort (arms : List Arm) :
    (arms.mergeSort le).filter (k == ·.1) = arms.filter (k == ·.1) := by
  have keyed : ∀ arm ∈ arms.filter (k == ·.1), arm.1 = k := by
    intro arm mem
    exact (beq_iff_eq.1 (List.mem_filter.1 mem).2).symm
  have ordered : (arms.filter (k == ·.1)).Pairwise (le · ·) := by
    refine List.Pairwise.imp_of_mem ?_ (List.pairwise_of_forall (R := fun _ _ => True) fun _ _ => trivial)
    intro a b ha hb _
    rw [decide_eq_true_eq, keyed a ha, keyed b hb]
    exact Int32.le_refl k
  have sub := List.sublist_mergeSort le_trans le_total ordered List.filter_sublist
  have sub' := sub.filter (k == ·.1)
  rw [List.filter_filter, show (fun a : Arm => (k == a.1) && (k == a.1)) = (k == ·.1) from
    funext fun a => Bool.and_self _] at sub'
  exact (sub'.eq_of_length ((List.mergeSort_perm arms le).filter _).length_eq.symm).symm

theorem lookup_put (arm : Arm) (arms : List Arm) : (put arm arms).lookup k = (arm :: arms).lookup k := by
  cases arms with
  | nil => rfl
  | cons next rest =>
    obtain ⟨key, l⟩ := arm
    obtain ⟨key', l'⟩ := next
    rw [put]
    split
    · next same =>
      -- The arm that is replaced is hidden by the one before it.
      cases same
      rw [List.lookup_cons, List.lookup_cons, List.lookup_cons]
      cases k == key <;> rfl
    · rfl

theorem put_subset {arm a : Arm} {arms : List Arm} (h : a ∈ put arm arms) : a = arm ∨ a ∈ arms := by
  cases arms with
  | nil => exact .inl (List.mem_singleton.1 h)
  | cons next rest =>
    rw [put] at h
    split at h
    · exact (List.mem_cons.1 h).imp_right (List.mem_cons_of_mem _)
    · exact List.mem_cons.1 h

theorem foldr_put_subset {a : Arm} {arms : List Arm} (h : a ∈ arms.foldr put []) : a ∈ arms := by
  induction arms with
  | nil => exact h
  | cons arm arms ih =>
    rcases put_subset h with rfl | h
    · exact List.mem_cons_self
    · exact List.mem_cons_of_mem _ (ih h)

theorem lookup_foldr_put (arms : List Arm) : (arms.foldr put []).lookup k = arms.lookup k := by
  induction arms with
  | nil => rfl
  | cons arm arms ih =>
    rw [List.foldr_cons, lookup_put]
    obtain ⟨key, l⟩ := arm
    rw [List.lookup_cons, List.lookup_cons, ih]

/-- Each key of a switch leads to its first label. -/
theorem lookup_sorted (keys : List Int32) (labels : List Label) :
    (sorted keys labels).lookup k = (keys.zip labels).lookup k := by
  rw [sorted, lookup_foldr_put, lookup_eq_head_filter, filter_mergeSort, ← lookup_eq_head_filter]

theorem sorted_subset {keys : List Int32} {labels : List Label} {arm : Arm} (h : arm ∈ sorted keys labels) :
    arm ∈ keys.zip labels :=
  (List.mergeSort_perm _ _).mem_iff.1 (foldr_put_subset h)

/-- Arms with strictly increasing keys. -/
def Increasing (arms : List Arm) : Prop := arms.Pairwise fun a b => a.1.toInt < b.1.toInt

theorem increasing_foldr_put {arms : List Arm} (h : arms.Pairwise (le · ·)) :
    Increasing (arms.foldr put []) := by
  induction arms with
  | nil => exact .nil
  | cons arm arms ih =>
    obtain ⟨least, h⟩ := List.pairwise_cons.1 h
    have rest := ih h
    have above : ∀ a ∈ arms.foldr put [], arm.1.toInt ≤ a.1.toInt := fun a mem =>
      Int32.le_iff_toInt_le.1 (of_decide_eq_true (least a (foldr_put_subset mem)))
    rw [List.foldr_cons]
    cases folded : arms.foldr put [] with
    | nil => exact List.pairwise_singleton _ _
    | cons next others =>
      rw [folded] at rest above
      obtain ⟨larger, others⟩ := List.pairwise_cons.1 rest
      rw [put]
      split
      · next same => exact List.pairwise_cons.2 ⟨fun a mem => by rw [same]; exact larger a mem, others⟩
      · next differs =>
        have first : arm.1.toInt < next.1.toInt := by
          have le := above next List.mem_cons_self
          have ne : arm.1.toInt ≠ next.1.toInt := fun e => differs (Int32.toInt_inj.1 e)
          omega
        refine List.pairwise_cons.2 ⟨fun a mem => ?_, rest⟩
        rcases List.mem_cons.1 mem with rfl | mem
        · exact first
        · exact Int.lt_trans first (larger a mem)

theorem increasing_sorted (keys : List Int32) (labels : List Label) : Increasing (sorted keys labels) :=
  increasing_foldr_put (List.pairwise_mergeSort le_trans le_total _)

namespace Increasing

variable {arms : List Arm} {first last : Arm}

theorem first_le (h : Increasing arms) (hf : arms.head? = some first) {a : Arm} (mem : a ∈ arms) :
    first.1.toInt ≤ a.1.toInt := by
  cases arms with
  | nil => cases hf
  | cons arm arms =>
    cases hf
    rcases List.mem_cons.1 mem with rfl | mem
    · exact Int.le_refl _
    · exact Int.le_of_lt ((List.pairwise_cons.1 h).1 a mem)

theorem lookup_of_mem (h : Increasing arms) {arm : Arm} (mem : arm ∈ arms) :
    arms.lookup arm.1 = some arm.2 := by
  induction arms with
  | nil => cases mem
  | cons next arms ih =>
    obtain ⟨larger, rest⟩ := List.pairwise_cons.1 h
    rw [List.lookup_cons]
    rcases List.mem_cons.1 mem with rfl | mem
    · rw [beq_self_eq_true]
    · have ne : arm.1 ≠ next.1 := by
        intro same
        have less := larger arm mem
        rw [same] at less
        exact absurd less (Int.lt_irrefl _)
      rw [beq_false_of_ne ne]
      exact ih rest mem

theorem le_last (h : Increasing arms) (hl : arms.getLast? = some last) {a : Arm} (mem : a ∈ arms) :
    a.1.toInt ≤ last.1.toInt := by
  obtain ⟨init, rfl⟩ := List.getLast?_eq_some_iff.1 hl
  rcases List.mem_append.1 mem with mem | mem
  · exact Int.le_of_lt ((List.pairwise_append.1 h).2.2 a mem last (List.mem_singleton.2 rfl))
  · obtain rfl := List.mem_singleton.1 mem
    exact Int.le_refl _

/-- The keys of increasing arms ascend, whatever their offsets are. -/
theorem ascending (h : Increasing arms) (offset : Label → Int32) :
    Ascending (arms.map fun arm => (arm.1, offset arm.2)) :=
  List.pairwise_map.2 (h.imp fun less => Int32.lt_iff_toInt_lt.2 less)

end Increasing

end Arm

/-! ## Tables -/

namespace Dispatch

theorem getElem?_foldl_set {low key : Int32} {arms : List Arm} (h : Arm.Increasing arms)
    (least : ∀ a ∈ arms, low.toInt ≤ a.1.toInt) (above : low.toInt ≤ key.toInt) (entries : Array Label) :
    (arms.foldl (fun entries arm => entries.setIfInBounds (arm.1.toInt - low.toInt).toNat arm.2)
      entries)[(key.toInt - low.toInt).toNat]? =
      entries[(key.toInt - low.toInt).toNat]?.map fun l => (arms.lookup key).getD l := by
  induction arms generalizing entries with
  | nil =>
    rw [List.foldl_nil, List.lookup_nil]
    cases entries[(key.toInt - low.toInt).toNat]? <;> rfl
  | cons arm arms ih =>
    obtain ⟨k, l⟩ := arm
    obtain ⟨larger, rest⟩ := List.pairwise_cons.1 h
    have bound := least _ List.mem_cons_self
    rw [List.foldl_cons, ih rest fun a mem => least a (List.mem_cons_of_mem _ mem),
      Array.getElem?_setIfInBounds, List.lookup_cons]
    simp only at bound ⊢
    by_cases same : key = k
    · -- No later arm has the same key.
      subst same
      have none : arms.lookup key = none := by
        rw [List.lookup_eq_none_iff]
        intro a mem
        rw [bne_iff_ne]
        rintro rfl
        exact absurd (larger a mem) (Int.lt_irrefl _)
      rw [if_pos rfl, none, beq_self_eq_true]
      by_cases inside : (key.toInt - low.toInt).toNat < entries.size
      · rw [if_pos inside, Array.getElem?_eq_getElem inside]
        rfl
      · rw [if_neg inside, Array.getElem?_eq_none (by omega)]
        rfl
    · have ne : key.toInt ≠ k.toInt := fun e => same (Int32.toInt_inj.1 e)
      rw [if_neg (by omega), beq_false_of_ne same]

/-- A table holds at the place of each key the label that the key leads to. -/
theorem getElem?_tableOf {arms : List Arm} {first : Arm} (h : Arm.Increasing arms)
    (hf : arms.head? = some first) {size : Nat} {other : Label} {key : Int32}
    (above : first.1.toInt ≤ key.toInt) :
    (tableOf first.1 size arms other)[(key.toInt - first.1.toInt).toNat]? =
      if (key.toInt - first.1.toInt).toNat < size then some ((arms.lookup key).getD other) else none := by
  rw [tableOf, getElem?_foldl_set h (fun a mem => h.first_le hf mem) above, Array.getElem?_replicate]
  split <;> rfl

theorem tableOf_subset {arms : List Arm} {low : Int32} {size : Nat} {other l : Label}
    (h : l ∈ tableOf low size arms other) : l = other ∨ l ∈ arms.map (·.2) := by
  have folded (arms : List Arm) (entries : Array Label) (h : l ∈ arms.foldl (fun entries arm =>
      entries.setIfInBounds (arm.1.toInt - low.toInt).toNat arm.2) entries) :
      l ∈ entries ∨ l ∈ arms.map (·.2) := by
    induction arms generalizing entries with
    | nil => exact .inl h
    | cons arm arms ih =>
      rw [List.map_cons, List.mem_cons]
      rcases ih _ h with mem | mem
      · rcases Array.mem_or_eq_of_mem_setIfInBounds mem with mem | rfl
        · exact .inl mem
        · exact .inr (.inl rfl)
      · exact .inr (.inr mem)
  rcases folded arms _ h with mem | mem
  · exact .inl (Array.eq_of_mem_replicate mem)
  · exact .inr mem

/-- The label of every arm stands in the table from the first key to the last one. -/
theorem mem_tableOf {arms : List Arm} {first last arm : Arm} (h : Arm.Increasing arms)
    (hf : arms.head? = some first) (hl : arms.getLast? = some last) (other : Label) (mem : arm ∈ arms) :
    arm.2 ∈ tableOf first.1 (span first last) arms other := by
  have low := h.first_le hf mem
  have high := h.le_last hl mem
  have entry : (tableOf first.1 (span first last) arms other)[(arm.1.toInt - first.1.toInt).toNat]? = _ :=
    getElem?_tableOf h hf low
  have inside : (arm.1.toInt - first.1.toInt).toNat < span first last := by
    rw [span]
    omega
  rw [if_pos inside, h.lookup_of_mem mem] at entry
  exact Array.mem_of_getElem? entry

/-- The dispatch of arms is a table from the first key to the last one, or the arms themselves. -/
theorem ofArms_cases (minDensity : Float) (arms : List Arm) (other : Label) :
    ofArms minDensity arms other = .lookup arms ∨
    ∃ first last, arms.head? = some first ∧ arms.getLast? = some last ∧
      ofArms minDensity arms other =
        .table first.1 (tableOf first.1 (span first last) arms other) := by
  unfold ofArms
  split
  · next first last hf hl =>
    simp only
    split
    · exact .inr ⟨first, last, hf, hl, rfl⟩
    · exact .inl rfl
  · exact .inl rfl

end Dispatch

/-! ## Instructions -/

/-- The offset by which a switch jumps for an int. -/
def Instr.offsetFor? (i : Instr) (key : Int32) : Option Int32 :=
  match i with
  | .tableSwitch low other offsets => some ((tableOffset? low offsets key).getD other)
  | .lookupSwitch other pairs => some ((bisect key pairs).getD other)
  | _ => none

namespace Dispatch

/-- The instruction of a dispatch when labels are at given offsets. -/
def instr (dispatch : Dispatch) (offset : Label → Int32) (other : Label) : Instr :=
  match dispatch with
  | .table low entries => .tableSwitch low (offset other) (entries.map offset)
  | .lookup arms => .lookupSwitch (offset other) (arms.map fun arm => (arm.1, offset arm.2))

variable {arms : List Arm} {other : Label} {offset : Label → Int32}

/-- A table of offsets has an offset for the keys of the arms. -/
theorem tableOffset?_tableOf (increasing : Arm.Increasing arms) {first last : Arm}
    (hf : arms.head? = some first) (hl : arms.getLast? = some last) (key : Int32) :
    (tableOffset? first.1 ((tableOf first.1 (span first last) arms other).map offset) key).getD
      (offset other) = offset ((arms.lookup key).getD other) := by
  -- A key outside of the table is that of no arm.
  have absent (out : ∀ arm ∈ arms, arm.1.toInt ≠ key.toInt) : arms.lookup key = none := by
    rw [List.lookup_eq_none_iff]
    intro arm mem
    rw [bne_iff_ne]
    rintro rfl
    exact out arm mem rfl
  unfold tableOffset?
  simp only
  split
  · next above =>
    rw [Array.getElem?_map, getElem?_tableOf increasing hf (by omega)]
    split
    · rfl
    · next large =>
      rw [span] at large
      rw [absent fun arm mem => ?_]
      · rfl
      · have := increasing.le_last hl mem
        omega
  · next below =>
    rw [absent fun arm mem => ?_]
    · rfl
    · have := increasing.first_le hf mem
      omega

/-- The instruction for arms jumps for every int to the label of its arm, or to the one for all others,
whether it is a table or not. -/
theorem offsetFor?_instr (minDensity : Float) (increasing : Arm.Increasing arms) (key : Int32) :
    ((ofArms minDensity arms other).instr offset other).offsetFor? key =
      some (offset ((arms.lookup key).getD other)) := by
  rcases ofArms_cases minDensity arms other with lookup | ⟨first, last, hf, hl, table⟩
  · rw [lookup, instr, Instr.offsetFor?, bisect_eq_lookup key (increasing.ascending offset), lookup_map_snd]
    cases arms.lookup key <;> rfl
  · rw [table, instr, Instr.offsetFor?, tableOffset?_tableOf increasing hf hl]

/-- The instruction for arms has the offsets to their labels and to the one for all others. -/
theorem mem_offsets_instr (minDensity : Float) (increasing : Arm.Increasing arms) {o : Int32} :
    o ∈ ((ofArms minDensity arms other).instr offset other).offsets ↔
      ∃ l ∈ other :: arms.map (·.2), offset l = o := by
  rcases ofArms_cases minDensity arms other with lookup | ⟨first, last, hf, hl, table⟩
  · have listed : (instr (.lookup arms) offset other).offsets = (other :: arms.map (·.2)).map offset := by
      simp [instr, Instr.offsets]
    rw [lookup, listed, List.mem_map]
  · have listed (low : Int32) (entries : Array Label) :
        (instr (.table low entries) offset other).offsets = (other :: entries.toList).map offset := by
      simp [instr, Instr.offsets]
    have same (l : Label) : l ∈ other :: (tableOf first.1 (span first last) arms other).toList ↔
        l ∈ other :: arms.map (·.2) := by
      rw [List.mem_cons, List.mem_cons, Array.mem_toList_iff]
      constructor
      · rintro (rfl | mem)
        · exact .inl rfl
        · exact tableOf_subset mem
      · rintro (rfl | mem)
        · exact .inl rfl
        · obtain ⟨arm, ha, rfl⟩ := List.mem_map.1 mem
          exact .inr (mem_tableOf increasing hf hl other ha)
    rw [table, listed, List.mem_map]
    simp only [same]

end Dispatch

namespace Draft

/-- The labels that stand in a draft. -/
def mentions : Draft → List Label
  | .plain _ => []
  | .jump _ l => [l]
  | .switch arms other => other :: arms.map (·.2)

/-- The instruction of a draft when labels are at given offsets. -/
def instr (minDensity : Float) (offset : Label → Int32) : Draft → Instr
  | .plain i => i
  | .jump j l => j.instr (offset l)
  | .switch arms other => (Dispatch.ofArms minDensity arms other).instr offset other

/-- Whether the arms of a draft have increasing keys. -/
def Ordered : Draft → Prop
  | .switch arms _ => Arm.Increasing arms
  | _ => True

end Draft

namespace Assembler

variable {a : Assembler} {minDensity : Float} {pc : Nat} {arms : List Arm} {other : Label}

/-- The offset from a position to a label, if there is one. -/
def offsetTo (a : Assembler) (pc : Nat) (l : Label) : Int32 := (a.offset pc l).toOption.getD 0

theorem offset_eq_offsetTo {l : Label} (h : ∃ offset, a.offset pc l = .ok offset) :
    a.offset pc l = .ok (a.offsetTo pc l) := by
  obtain ⟨offset, ho⟩ := h
  rw [offsetTo, ho]
  rfl

/-- A draft is resolved when all of its labels have offsets. -/
theorem resolve_of_offsets (minDensity : Float) {d : Draft}
    (h : ∀ l ∈ d.mentions, ∃ offset, a.offset pc l = .ok offset) :
    a.resolve minDensity pc d = .ok (d.instr minDensity (a.offsetTo pc)) := by
  cases d with
  | plain i => rfl
  | jump j l =>
    rw [resolve, offset_eq_offsetTo (h l (List.mem_singleton.2 rfl))]
    rfl
  | switch arms other =>
    have arm (arm : Arm) (mem : arm ∈ arms) : a.offset pc arm.2 = .ok (a.offsetTo pc arm.2) :=
      offset_eq_offsetTo (h _ (List.mem_cons_of_mem _ (List.mem_map_of_mem mem)))
    have others := offset_eq_offsetTo (h other List.mem_cons_self)
    rw [resolve, others, Draft.instr]
    simp only [Bind.bind, Except.bind]
    rcases Dispatch.ofArms_cases minDensity arms other with lookup | ⟨first, last, -, -, table⟩
    · rw [lookup]
      have pairs : arms.mapM (fun arm => do return (arm.1, ← a.offset pc arm.2)) =
          .ok (arms.map fun arm => (arm.1, a.offsetTo pc arm.2)) := mapM_eq_ok fun x mem => by
        rw [arm x mem]
        rfl
      change (arms.mapM (fun arm => do return (arm.1, ← a.offset pc arm.2)) >>= _) = _
      rw [pairs]
      rfl
    · rw [table]
      simp only
      rw [Array.mapM_eq_mapM_toList, mapM_eq_ok (g := a.offsetTo pc) fun l mem => ?_]
      · rw [← Array.toList_map]
        rfl
      · rcases Dispatch.tableOf_subset (Array.mem_toList_iff.1 mem) with rfl | mem
        · exact others
        · obtain ⟨x, hx, rfl⟩ := List.mem_map.1 mem
          exact arm x hx

/-- A draft that is resolved has offsets to all of its labels. -/
theorem offsets_of_resolve {d : Draft} {i : Instr} (ordered : d.Ordered)
    (h : a.resolve minDensity pc d = .ok i) : ∀ l ∈ d.mentions, ∃ offset, a.offset pc l = .ok offset := by
  intro l mem
  cases d with
  | plain i => cases mem
  | jump j target =>
    obtain ⟨offset, ho, -⟩ := except_bind_eq_ok h
    rw [List.mem_singleton.1 mem]
    exact ⟨offset, ho⟩
  | switch arms other =>
    obtain ⟨otherOffset, ho, h⟩ := except_bind_eq_ok h
    rcases List.mem_cons.1 mem with rfl | mem
    · exact ⟨otherOffset, ho⟩
    · obtain ⟨arm, ha, rfl⟩ := List.mem_map.1 mem
      rcases Dispatch.ofArms_cases minDensity arms other with lookup | ⟨first, last, hf, hl, table⟩
      · rw [lookup] at h
        obtain ⟨pairs, hp, -⟩ := except_bind_eq_ok h
        obtain ⟨p, -, hp⟩ := exists_of_mapM hp ha
        obtain ⟨offset, ho, -⟩ := except_bind_eq_ok hp
        exact ⟨offset, ho⟩
      · rw [table] at h
        obtain ⟨offsets, hm, -⟩ := except_bind_eq_ok h
        rw [Array.mapM_eq_mapM_toList] at hm
        obtain ⟨listed, hm, -⟩ := except_bind_eq_ok hm
        obtain ⟨offset, -, ho⟩ := exists_of_mapM hm
          (Array.mem_toList_iff.2 (Dispatch.mem_tableOf ordered hf hl other ha))
        exact ⟨offset, ho⟩

/-- What a draft is resolved to, and when. -/
theorem resolve_eq_ok_iff {d : Draft} {i : Instr} (ordered : d.Ordered) :
    a.resolve minDensity pc d = .ok i ↔
      (∀ l ∈ d.mentions, ∃ offset, a.offset pc l = .ok offset) ∧ i = d.instr minDensity (a.offsetTo pc) := by
  constructor
  · intro h
    have located := offsets_of_resolve ordered h
    rw [resolve_of_offsets minDensity located] at h
    exact ⟨located, (Except.ok.inj h).symm⟩
  · rintro ⟨located, rfl⟩
    exact resolve_of_offsets minDensity located

/-- The instruction of a switch jumps for every int to the label of its arm, or to the one for all
others, and to nothing else. -/
theorem resolve_switch (increasing : Arm.Increasing arms) {i : Instr}
    (h : a.resolve minDensity pc (.switch arms other) = .ok i) :
    (∀ key, ∃ offset, i.offsetFor? key = some offset ∧
      a.offset pc ((arms.lookup key).getD other) = .ok offset) ∧
    ∀ offset ∈ i.offsets, ∃ l ∈ other :: arms.map (·.2), a.offset pc l = .ok offset := by
  obtain ⟨located, rfl⟩ := (resolve_eq_ok_iff (d := .switch arms other) increasing).1 h
  refine ⟨fun key => ⟨_, Dispatch.offsetFor?_instr minDensity increasing key, offset_eq_offsetTo (located _ ?_)⟩,
    fun offset mem => ?_⟩
  · cases found : arms.lookup key with
    | none => exact List.mem_cons_self
    | some l => exact List.mem_cons_of_mem _ (List.mem_map.2 ⟨_, mem_of_lookup found, rfl⟩)
  · obtain ⟨l, hl, rfl⟩ := (Dispatch.mem_offsets_instr minDensity increasing).1 mem
    exact ⟨l, hl, offset_eq_offsetTo (located l hl)⟩

end Assembler

end Stacklet
