import Stacklet.Proofs.Assembly.Resolved
import Stacklet.Proofs.Lowering.Labels

/-!
# Linking

Which calls assemble, and to what, said of the calls alone. Every label has to be made before it is bound
and to be bound once (`BindsWell`); the labels that jumps and switches refer to have to be bound to an
instruction that an offset can reach (`RefersWell`). The code is then the instructions of the calls in
order with offsets in place of labels (`linked`).
-/

namespace Stacklet

/-- The number of labels that calls make. -/
def labelsMade : List Call → Nat
  | [] => 0
  | call :: rest => call.labelsMade + labelsMade rest

/-- A label is bound at a position: a call binds it behind that many instructions. -/
def BoundAt (calls : List Call) (l : Label) (pos : Nat) : Prop :=
  ∃ before after, calls = before ++ .bind l :: after ∧ pos = codeSize before

/-- Whether labels are made before they are bound, and are bound once. -/
def BindsWell (calls : List Call) : Prop :=
  ∀ (before after : List Call) (l : Label), calls = before ++ .bind l :: after →
    l.id < labelsMade before ∧ .bind l ∉ before

/-- Whether a call refers to a label. Of two equal keys of a switch the first counts. -/
def Call.RefersTo (l : Label) : Call → Prop
  | .jump _ target => l = target
  | .switch keys labels other => l = other ∨ ∃ key, (keys.zip labels).lookup key = some l
  | .makeLabel | .bind _ | .add _ | .inc .. => False

/-- A label leads from one position to another: it is made, bound there to an instruction, and the offset
fits. -/
structure LeadsTo (calls : List Call) (pc : Nat) (l : Label) (pos : Nat) : Prop where
  made : l.id < labelsMade calls
  bound : BoundAt calls l pos
  inside : pos < codeSize calls
  fits : -2147483648 ≤ (pos : Int) - pc ∧ (pos : Int) - pc ≤ 2147483647

/-- Whether all labels that calls refer to lead somewhere. -/
def RefersWell (calls : List Call) : Prop :=
  ∀ (before : List Call) (call : Call) (after : List Call), calls = before ++ call :: after →
    ∀ l, call.RefersTo l → ∃ pos, LeadsTo calls (codeSize before) l pos

/-- The instruction of a call when labels are at given offsets. -/
def Call.instr? (minDensity : Float) (offset : Label → Int32) : Call → Option Instr
  | .makeLabel | .bind _ => none
  | .add i => some i
  | .inc slot delta => some (.inc slot delta)
  | .jump j l => some (j.instr (offset l))
  | .switch keys labels other =>
    some ((Dispatch.ofArms minDensity (Arm.sorted keys labels) other).instr offset other)

/-- The instructions of calls from a position on, when labels are at given positions. -/
def linkedFrom (minDensity : Float) (position : Label → Nat) : Nat → List Call → List Instr
  | _, [] => []
  | pc, call :: rest =>
    (call.instr? minDensity fun l => Int32.ofInt (position l - pc)).toList
      ++ linkedFrom minDensity position (pc + call.width) rest

/-- The position at which calls first bind a label. -/
def positionIn (calls : List Call) (l : Label) : Nat := codeSize (calls.takeWhile fun call => !call.isBindOf l.id)

/-- The instructions of calls, with offsets in place of labels. -/
def linked (minDensity : Float) (calls : List Call) : List Instr :=
  linkedFrom minDensity (positionIn calls) 0 calls

/-- An offset leads from a position to where a label is bound, which is inside code of a size. -/
def Reaches (calls : List Call) (size pc : Nat) (l : Label) (offset : Int32) : Prop :=
  ∃ pos, BoundAt calls l pos ∧ offset.toInt = pos - pc ∧ pos < size

/-- What code holds at a position for a call: its instruction, in which every offset leads to where a label
that the call refers to is bound. -/
def Call.Linked (calls : List Call) (instrs : Array Instr) (pc : Nat) : Call → Prop
  | .makeLabel | .bind _ => True
  | .add i => instrs[pc]? = some i
  | .inc slot delta => instrs[pc]? = some (.inc slot delta)
  | .jump .goto l => ∃ offset, instrs[pc]? = some (.goto offset) ∧ Reaches calls instrs.size pc l offset
  | .jump (.ifZero cond) l => ∃ offset, instrs[pc]? = some (.ifZero cond offset) ∧
    Reaches calls instrs.size pc l offset
  | .jump (.ifCompare cond) l => ∃ offset, instrs[pc]? = some (.ifCompare cond offset) ∧
    Reaches calls instrs.size pc l offset
  | .switch keys labels other => ∃ i, instrs[pc]? = some i ∧
    (∀ key, ∃ offset, i.offsetFor? key = some offset ∧
      Reaches calls instrs.size pc (((keys.zip labels).lookup key).getD other) offset) ∧
    ∀ offset ∈ i.offsets, ∃ l, (Call.switch keys labels other).RefersTo l ∧ Reaches calls instrs.size pc l offset

/-! ## Calls one after the other -/

section

variable {calls before after : List Call} {call call' : Call} {l : Label} {pos : Nat}

/-- One of calls stands among all but the last one, or is the last one. -/
theorem snoc_eq_split_iff :
    calls ++ [call] = before ++ call' :: after ↔
      (∃ after', calls = before ++ call' :: after' ∧ after = after' ++ [call]) ∨
        calls = before ∧ call = call' ∧ after = [] := by
  constructor
  · intro h
    rcases List.eq_nil_or_concat after with rfl | ⟨after', last, rfl⟩
    · obtain ⟨rfl, same⟩ := List.append_inj' h rfl
      exact .inr ⟨rfl, List.singleton_inj.1 same, rfl⟩
    · rw [List.concat_eq_append] at h ⊢
      rw [← List.cons_append, ← List.append_assoc] at h
      obtain ⟨rfl, same⟩ := List.append_inj' h rfl
      exact .inl ⟨after', rfl, by rw [List.singleton_inj.1 same]⟩
  · rintro (⟨after', rfl, rfl⟩ | ⟨rfl, rfl, rfl⟩)
    · rw [List.append_assoc, List.cons_append]
    · rfl

theorem labelsMade_append (calls more : List Call) :
    labelsMade (calls ++ more) = labelsMade calls + labelsMade more := by
  induction calls with
  | nil => exact (Nat.zero_add _).symm
  | cons first rest ih => rw [List.cons_append, labelsMade, ih, labelsMade, Nat.add_assoc]

theorem labelsMade_snoc : labelsMade (calls ++ [call]) = labelsMade calls + call.labelsMade :=
  labelsMade_append calls [call]

theorem boundAt_snoc :
    BoundAt (calls ++ [call]) l pos ↔ BoundAt calls l pos ∨ call = .bind l ∧ pos = codeSize calls := by
  constructor
  · rintro ⟨before, after, split, rfl⟩
    rcases snoc_eq_split_iff.1 split with ⟨after', rfl, rfl⟩ | ⟨rfl, rfl, rfl⟩
    · exact .inl ⟨before, after', rfl, rfl⟩
    · exact .inr ⟨rfl, rfl⟩
  · rintro (⟨before, after, rfl, rfl⟩ | ⟨rfl, rfl⟩)
    · exact ⟨before, after ++ [call], by rw [List.append_assoc, List.cons_append], rfl⟩
    · exact ⟨calls, [], rfl, rfl⟩

theorem bindsWell_snoc :
    BindsWell (calls ++ [call]) ↔
      BindsWell calls ∧ ∀ l, call = .bind l → l.id < labelsMade calls ∧ .bind l ∉ calls := by
  constructor
  · intro h
    refine ⟨fun before after l split => h before (after ++ [call]) l ?_, fun l same => h calls [] l ?_⟩
    · rw [split, List.append_assoc, List.cons_append]
    · rw [same]
  · rintro ⟨earlier, last⟩ before after l split
    rcases snoc_eq_split_iff.1 split with ⟨after', split, -⟩ | ⟨rfl, same, -⟩
    · exact earlier before after' l split
    · exact last l same

theorem mem_iff_boundAt : .bind l ∈ calls ↔ ∃ pos, BoundAt calls l pos := by
  rw [List.mem_iff_append]
  constructor
  · rintro ⟨before, after, rfl⟩
    exact ⟨_, before, after, rfl, rfl⟩
  · rintro ⟨pos, before, after, rfl, -⟩
    exact ⟨before, after, rfl⟩

/-- In calls that bind labels once, a label is bound where it is bound first. -/
theorem BoundAt.eq_positionIn (h : BoundAt calls l pos) (well : BindsWell calls) :
    pos = positionIn calls l := by
  obtain ⟨before, after, rfl, rfl⟩ := h
  have earlier : ∀ call ∈ before, (!call.isBindOf l.id) = true := by
    intro call mem
    rw [Bool.not_eq_true']
    cases call with
    | bind l' =>
      have fresh := (well before after l rfl).2
      refine beq_false_of_ne fun same => fresh ?_
      have same : l' = l := congrArg Label.mk same
      rwa [← same]
    | makeLabel | add | inc | jump | switch => rfl
  rw [positionIn, List.takeWhile_append_of_pos earlier, List.takeWhile_cons_of_neg (by simp [Call.isBindOf]),
    List.append_nil]

end

/-! ## What the assembler keeps -/

namespace Assembler

/-- An assembler that knows of calls which labels they made and bound, and whether they bound them well. -/
structure Tracks (a : Assembler) (calls : List Call) : Prop where
  position : a.position = codeSize calls
  made : a.labels.size = labelsMade calls
  faultless : a.misbound = none ↔ BindsWell calls
  bound : BindsWell calls → ∀ (l : Label) (pos : Nat),
    a.labels[l.id]? = some (some pos) ↔ BoundAt calls l pos

variable {a : Assembler} {calls : List Call}

theorem tracks_empty : empty.Tracks [] where
  position := rfl
  made := rfl
  faultless := ⟨fun _ before after l split => by simp at split, fun _ => rfl⟩
  bound _ l pos := ⟨nofun, fun ⟨before, after, split, _⟩ => by simp at split⟩

/-- A call that neither makes nor binds a label leaves what is known of labels as it is. -/
theorem Tracks.add (h : a.Tracks calls) {call : Call} (width : call.width = 1) (made : call.labelsMade = 0)
    (unbinding : ∀ l, call ≠ .bind l) (d : Draft) : (a.add d).Tracks (calls ++ [call]) := by
  have well : BindsWell (calls ++ [call]) ↔ BindsWell calls := by
    rw [bindsWell_snoc]
    exact and_iff_left fun l same => absurd same (unbinding l)
  refine ⟨?_, ?_, h.faultless.trans well.symm, fun binds l pos => (h.bound (well.1 binds) l pos).trans ?_⟩
  · rw [codeSize_append, ← h.position, codeSize_cons, width]
    exact Array.size_push _
  · rw [labelsMade_snoc, made, Nat.add_zero]
    exact h.made
  · rw [boundAt_snoc]
    exact (or_iff_left fun last => unbinding l last.1).symm

theorem Tracks.makeLabel (h : a.Tracks calls) : (a.call .makeLabel).Tracks (calls ++ [.makeLabel]) := by
  have well : BindsWell (calls ++ [.makeLabel]) ↔ BindsWell calls := by
    rw [bindsWell_snoc]
    exact and_iff_left fun l same => by cases same
  refine ⟨?_, ?_, h.faultless.trans well.symm, fun binds l pos => ?_⟩
  · rw [codeSize_append]
    exact h.position
  · rw [labelsMade_snoc, ← h.made]
    exact Array.size_push _
  · rw [boundAt_snoc, ← h.bound (well.1 binds) l pos, Assembler.call, Array.getElem?_push]
    split
    · next last =>
      rw [last, Array.getElem?_eq_none (Nat.le_refl _)]
      simp
    · exact (or_iff_left fun bound => by cases bound.1).symm

theorem misbound_fail (a : Assembler) (e : AssembleError) : (a.fail e).misbound ≠ none := by
  rw [fail]
  cases a.misbound with
  | none => exact Option.some_ne_none e
  | some first => exact Option.some_ne_none first

/-- A label that may be bound is one that is made and not yet bound. -/
theorem Tracks.unbound_iff (h : a.Tracks calls) (binds : BindsWell calls) (l : Label) :
    a.labels[l.id]? = some none ↔ l.id < labelsMade calls ∧ .bind l ∉ calls := by
  rw [mem_iff_boundAt, ← h.made]
  simp only [← h.bound binds]
  cases found : a.labels[l.id]? with
  | none =>
    have out := Array.getElem?_eq_none_iff.1 found
    exact ⟨nofun, fun ⟨inside, _⟩ => absurd inside (Nat.not_lt_of_le out)⟩
  | some entry =>
    obtain ⟨inside, -⟩ := Array.getElem?_eq_some_iff.1 found
    cases entry with
    | none => exact ⟨fun _ => ⟨inside, nofun⟩, fun _ => rfl⟩
    | some pos => exact ⟨nofun, fun ⟨_, free⟩ => absurd ⟨pos, rfl⟩ free⟩

theorem Tracks.bind (h : a.Tracks calls) (l : Label) : (a.bind l).Tracks (calls ++ [.bind l]) := by
  have well : BindsWell (calls ++ [.bind l]) ↔
      BindsWell calls ∧ l.id < labelsMade calls ∧ .bind l ∉ calls := by
    rw [bindsWell_snoc]
    exact and_congr_right fun _ => ⟨fun last => last l rfl, fun last l' same => by cases same; exact last⟩
  -- A label that is bound again or not made is noted, and nothing is bound well from there on.
  have fails (e : AssembleError) (bad : a.labels[l.id]? ≠ some none) :
      (a.fail e).Tracks (calls ++ [.bind l]) := by
    have unwell : ¬BindsWell (calls ++ [.bind l]) := fun binds =>
      bad ((h.unbound_iff (well.1 binds).1 l).2 (well.1 binds).2)
    refine ⟨?_, ?_, ⟨fun free => absurd free (misbound_fail a e), fun binds => absurd binds unwell⟩,
      fun binds => absurd binds unwell⟩
    · rw [codeSize_append]
      exact h.position
    · rw [labelsMade_snoc]
      exact h.made
  unfold Assembler.bind
  split
  · next unbound =>
    obtain ⟨inside, -⟩ := Array.getElem?_eq_some_iff.1 unbound
    refine ⟨?_, ?_, ?_, fun binds l' pos => ?_⟩
    · rw [codeSize_append]
      exact h.position
    · rw [labelsMade_snoc, ← h.made]
      exact Array.size_setIfInBounds
    · rw [well, ← h.faultless]
      exact (and_iff_left_of_imp fun free => (h.unbound_iff (h.faultless.1 free) l).1 unbound).symm
    · rw [boundAt_snoc, ← h.bound (well.1 binds).1 l' pos, Array.getElem?_setIfInBounds, ← h.position]
      split
      · next same =>
        have same : l = l' := congrArg Label.mk same
        subst same
        rw [unbound]
        constructor
        · intro here
          exact .inr ⟨rfl, (Option.some.inj (Option.some.inj here)).symm⟩
        · rintro (none | ⟨-, here⟩)
          · cases none
          · rw [here]
      · next other =>
        exact (or_iff_left fun last => other (congrArg Label.id (Call.bind.inj last.1))).symm
  · next taken => exact fails _ (by rw [taken]; nofun)
  · next unmade => exact fails _ (by rw [unmade]; nofun)

/-- A call keeps track. -/
theorem Tracks.call (h : a.Tracks calls) (call : Call) : (a.call call).Tracks (calls ++ [call]) := by
  cases call with
  | makeLabel => exact h.makeLabel
  | bind l => exact h.bind l
  | add | inc | jump | switch => exact h.add rfl rfl (by nofun) _

/-- Calls keep track. -/
theorem Tracks.foldl (h : a.Tracks calls) (more : List Call) :
    (more.foldl Assembler.call a).Tracks (calls ++ more) := by
  induction more generalizing a calls with
  | nil => rwa [List.append_nil]
  | cons call more ih =>
    rw [← List.singleton_append, ← List.append_assoc]
    exact ih (h.call call)

theorem tracks_ofCalls (calls : List Call) : (ofCalls calls).Tracks calls := tracks_empty.foldl calls

theorem Tracks.offset_eq_ok_iff (h : a.Tracks calls) (binds : BindsWell calls) {pc : Nat} {l : Label}
    {offset : Int32} :
    a.offset pc l = .ok offset ↔ ∃ pos, LeadsTo calls pc l pos ∧ offset = Int32.ofInt (pos - pc) := by
  rw [Assembler.offset_eq_ok_iff]
  constructor
  · rintro ⟨pos, found, inside, fits, rfl⟩
    obtain ⟨made, -⟩ := Array.getElem?_eq_some_iff.1 found
    exact ⟨pos, ⟨h.made ▸ made, (h.bound binds l pos).1 found, h.position ▸ inside, fits⟩, rfl⟩
  · rintro ⟨pos, leads, rfl⟩
    exact ⟨pos, (h.bound binds l pos).2 leads.bound, h.position ▸ leads.inside, leads.fits, rfl⟩

theorem Tracks.offsetTo_eq (h : a.Tracks calls) (binds : BindsWell calls) {pc pos : Nat} {l : Label}
    (leads : LeadsTo calls pc l pos) : a.offsetTo pc l = Int32.ofInt (pos - pc) := by
  rw [offsetTo, (h.offset_eq_ok_iff binds).2 ⟨pos, leads, rfl⟩]
  rfl

end Assembler

/-! ## What is linked -/

theorem LeadsTo.toInt_ofInt {calls : List Call} {pc pos : Nat} {l : Label} (h : LeadsTo calls pc l pos) :
    (Int32.ofInt (pos - pc)).toInt = pos - pc := by
  have fits := h.fits
  exact Int32.toInt_ofInt_of_le (by omega) (by omega)

theorem Call.draft?_of_refersTo {call : Call} {l : Label} (h : call.RefersTo l) :
    ∃ d, call.draft? = some d := by
  cases call with
  | makeLabel | bind | add | inc => cases h
  | jump | switch => exact ⟨_, rfl⟩

/-- A switch refers to the label that an int leads to. -/
theorem Call.refersTo_lookup (keys : List Int32) (labels : List Label) (other : Label) (key : Int32) :
    (Call.switch keys labels other).RefersTo (((keys.zip labels).lookup key).getD other) := by
  cases found : (keys.zip labels).lookup key with
  | none => exact .inl rfl
  | some l => exact .inr ⟨key, found⟩

/-- The labels that stand in the draft of a call are those that it refers to. -/
theorem Call.mem_mentions_iff {call : Call} {d : Draft} (h : call.draft? = some d) {l : Label} :
    l ∈ d.mentions ↔ call.RefersTo l := by
  cases call with
  | makeLabel | bind => cases h
  | add | inc =>
    cases h
    exact ⟨nofun, nofun⟩
  | jump j target =>
    cases h
    exact List.mem_singleton
  | switch keys labels other =>
    cases h
    refine List.mem_cons.trans (or_congr_right ⟨fun mem => ?_, fun ⟨key, found⟩ => ?_⟩)
    · obtain ⟨arm, ha, rfl⟩ := List.mem_map.1 mem
      refine ⟨arm.1, ?_⟩
      rw [← Arm.lookup_sorted]
      exact (Arm.increasing_sorted keys labels).lookup_of_mem ha
    · rw [← Arm.lookup_sorted] at found
      exact List.mem_map.2 ⟨_, mem_of_lookup found, rfl⟩

theorem Call.instr?_eq (call : Call) (minDensity : Float) (offset : Label → Int32) :
    call.instr? minDensity offset = call.draft?.map (Draft.instr minDensity offset) := by
  cases call <;> rfl

theorem Call.length_draft? (call : Call) : call.draft?.toList.length = call.width := by
  cases call <;> rfl

theorem length_drafts (calls : List Call) : (calls.filterMap Call.draft?).length = codeSize calls := by
  induction calls with
  | nil => rfl
  | cons call calls ih =>
    rw [codeSize_cons, ← ih, ← call.length_draft?]
    cases hd : call.draft? with
    | none => rw [List.filterMap_cons_none hd]; exact (Nat.zero_add _).symm
    | some d => rw [List.filterMap_cons_some hd]; exact Nat.add_comm _ 1

/-- A draft stands at the position at which its call is made. -/
theorem getElem?_drafts {calls : List Call} {pc : Nat} {d : Draft} :
    (calls.filterMap Call.draft?)[pc]? = some d ↔
      ∃ before call after, calls = before ++ call :: after ∧ call.draft? = some d ∧ pc = codeSize before := by
  constructor
  · intro h
    obtain ⟨inside, rfl⟩ := List.getElem?_eq_some_iff.1 h
    have split := (List.take_append_drop pc (calls.filterMap Call.draft?)).symm
    rw [List.drop_eq_getElem_cons inside] at split
    obtain ⟨front, rest, rfl, taken, dropped⟩ := List.filterMap_eq_append_iff.1 split
    obtain ⟨silent, call, after, rfl, none, drafted, -⟩ := List.filterMap_eq_cons_iff.1 dropped
    refine ⟨front ++ silent, call, after, (List.append_assoc ..).symm, drafted, ?_⟩
    rw [← length_drafts, List.filterMap_append, taken, List.filterMap_eq_nil_iff.2 none, List.append_nil,
      List.length_take_of_le (Nat.le_of_lt inside)]
  · rintro ⟨before, call, after, rfl, drafted, rfl⟩
    rw [List.filterMap_append, List.filterMap_cons_some drafted, ← length_drafts before,
      List.getElem?_append_right (Nat.le_refl _), Nat.sub_self]
    rfl

/-- An instruction depends on the offsets to the labels of its draft only. -/
theorem Draft.instr_congr {d : Draft} {offset offset' : Label → Int32} (minDensity : Float)
    (same : ∀ l ∈ d.mentions, offset l = offset' l) :
    d.instr minDensity offset = d.instr minDensity offset' := by
  cases d with
  | plain i => rfl
  | jump j l => rw [instr, instr, same l (List.mem_singleton.2 rfl)]
  | switch arms other =>
    have others := same other List.mem_cons_self
    have armwise (arm : Arm) (mem : arm ∈ arms) : offset arm.2 = offset' arm.2 :=
      same _ (List.mem_cons_of_mem _ (List.mem_map_of_mem mem))
    rw [instr, instr]
    rcases Dispatch.ofArms_cases minDensity arms other with lookup | ⟨first, last, -, -, table⟩
    · rw [lookup, Dispatch.instr, Dispatch.instr, others,
        List.map_congr_left fun arm mem => by rw [armwise arm mem]]
    · rw [table, Dispatch.instr, Dispatch.instr, others, Array.map_congr_left fun l mem => ?_]
      rcases Dispatch.tableOf_subset mem with rfl | mem
      · exact others
      · obtain ⟨arm, ha, rfl⟩ := List.mem_map.1 mem
        exact armwise arm ha

theorem linkedFrom_eq (minDensity : Float) (position : Label → Nat) (pc : Nat) (calls : List Call) :
    linkedFrom minDensity position pc calls =
      ((calls.filterMap Call.draft?).zipIdx pc).map fun (d, pc) =>
        d.instr minDensity fun l => Int32.ofInt (position l - pc) := by
  induction calls generalizing pc with
  | nil => rfl
  | cons call calls ih =>
    rw [linkedFrom, ih, Call.instr?_eq, ← call.length_draft?]
    cases hd : call.draft? with
    | none => rw [List.filterMap_cons_none hd]; rfl
    | some d => rw [List.filterMap_cons_some hd]; rfl

namespace Assembler

variable {calls : List Call}

theorem getElem?_drafts_ofCalls {pc : Nat} {d : Draft} :
    (ofCalls calls).drafts[pc]? = some d ↔
      ∃ before call after, calls = before ++ call :: after ∧ call.draft? = some d ∧ pc = codeSize before := by
  rw [← Array.getElem?_toList, drafts_ofCalls, getElem?_drafts]

theorem located_iff (binds : BindsWell calls) : (ofCalls calls).Located ↔ RefersWell calls := by
  have offsets (pc : Nat) (l : Label) :
      (∃ offset, (ofCalls calls).offset pc l = .ok offset) ↔ ∃ pos, LeadsTo calls pc l pos := by
    simp only [(tracks_ofCalls calls).offset_eq_ok_iff binds]
    exact ⟨fun ⟨_, pos, leads, _⟩ => ⟨pos, leads⟩, fun ⟨pos, leads⟩ => ⟨_, pos, leads, rfl⟩⟩
  constructor
  · intro located before call after split l refers
    obtain ⟨d, drafted⟩ := Call.draft?_of_refersTo refers
    refine (offsets _ l).1 (located _ d ?_ l ((Call.mem_mentions_iff drafted).2 refers))
    exact getElem?_drafts_ofCalls.2 ⟨before, call, after, split, drafted, rfl⟩
  · intro refers pc d standing l mem
    obtain ⟨before, call, after, split, drafted, rfl⟩ := getElem?_drafts_ofCalls.1 standing
    exact (offsets _ l).2 (refers before call after split l ((Call.mem_mentions_iff drafted).1 mem))

/-- The assembler puts the same offsets in. -/
theorem linked_eq (minDensity : Float) (binds : BindsWell calls) (refers : RefersWell calls) :
    (ofCalls calls).linked minDensity = Stacklet.linked minDensity calls := by
  rw [Assembler.linked, Stacklet.linked, linkedFrom_eq, drafts_ofCalls]
  refine List.map_congr_left fun (d, pc) mem => Draft.instr_congr minDensity fun l hl => ?_
  rw [List.mk_mem_zipIdx_iff_getElem?] at mem
  obtain ⟨before, call, after, split, drafted, rfl⟩ := getElem?_drafts.1 mem
  obtain ⟨pos, leads⟩ := refers before call after split l ((Call.mem_mentions_iff drafted).1 hl)
  rw [(tracks_ofCalls calls).offsetTo_eq binds leads, leads.bound.eq_positionIn binds]

/-- Which calls assemble to instructions, and to which. -/
theorem instrs_eq_ok_iff_linked {minDensity : Float} {instrs : List Instr} :
    (ofCalls calls).instrs minDensity = .ok instrs ↔
      BindsWell calls ∧ RefersWell calls ∧ instrs = Stacklet.linked minDensity calls := by
  rw [instrs_eq_ok_iff, (tracks_ofCalls calls).faultless]
  refine and_congr_right fun binds => ?_
  rw [located_iff binds]
  refine and_congr_right fun refers => ?_
  rw [linked_eq minDensity binds refers]

/-- The instruction of a call stands at its position, with the offsets to its labels. -/
theorem getElem?_linked (minDensity : Float) (binds : BindsWell calls) (refers : RefersWell calls)
    {before after : List Call} {call : Call} (split : calls = before ++ call :: after) {d : Draft}
    (drafted : call.draft? = some d) :
    (Stacklet.linked minDensity calls).toArray[codeSize before]? =
      some (d.instr minDensity ((ofCalls calls).offsetTo (codeSize before))) := by
  have found := getElem?_drafts.2 ⟨before, call, after, split, drafted, rfl⟩
  rw [List.getElem?_toArray, ← linked_eq minDensity binds refers, Assembler.linked, drafts_ofCalls,
    List.getElem?_map, List.getElem?_zipIdx, found, Nat.zero_add]
  rfl

/-- What code holds for a call that is assembled. -/
theorem linked_of_split (minDensity : Float) (binds : BindsWell calls) (refers : RefersWell calls)
    {before after : List Call} {call : Call} (split : calls = before ++ call :: after) :
    call.Linked calls (Stacklet.linked minDensity calls).toArray (codeSize before) := by
  have size : (Stacklet.linked minDensity calls).toArray.size = codeSize calls := by
    rw [List.size_toArray, Stacklet.linked, linkedFrom_eq, List.length_map, List.length_zipIdx, length_drafts]
  have standing {d : Draft} (drafted : call.draft? = some d) :=
    getElem?_linked minDensity binds refers split drafted
  have leading {l : Label} (hl : call.RefersTo l) :
      Reaches calls (Stacklet.linked minDensity calls).toArray.size (codeSize before) l
        ((ofCalls calls).offsetTo (codeSize before) l) := by
    obtain ⟨pos, leads⟩ := refers before call after split l hl
    refine ⟨pos, leads.bound, ?_, size ▸ leads.inside⟩
    rw [(tracks_ofCalls calls).offsetTo_eq binds leads, leads.toInt_ofInt]
  cases call with
  | makeLabel | bind => trivial
  | add | inc => exact standing rfl
  | jump j l => cases j <;> exact ⟨_, standing rfl, leading rfl⟩
  | switch keys labels other =>
    have increasing := Arm.increasing_sorted keys labels
    refine ⟨_, standing rfl, fun key => ?_, fun offset mem => ?_⟩
    · refine ⟨_, ?_, leading (Call.refersTo_lookup keys labels other key)⟩
      rw [Draft.instr, Dispatch.offsetFor?_instr minDensity increasing, Arm.lookup_sorted]
    · obtain ⟨l, hl, rfl⟩ := (Dispatch.mem_offsets_instr minDensity increasing).1 mem
      have drafted : (Call.switch keys labels other).draft? = some (.switch (Arm.sorted keys labels) other) := rfl
      have referred := (Call.mem_mentions_iff drafted).1 hl
      exact ⟨l, referred, leading referred⟩

/-- Calls assemble exactly if they bind labels well, refer to labels that lead somewhere and, if that is
wanted, what they are linked to passes verification. The code is then what they are linked to: an
instruction for each call that adds one, in order, in which all offsets lead to where labels are bound. -/
theorem finish_linked (calls : List Call) (options : AssemblyOptions) (name : String) (maxLocals : UInt16)
    (fields : List FieldDecl) :
    ((∃ code, (ofCalls calls).finish options name maxLocals fields = .ok code) ↔
      BindsWell calls ∧ RefersWell calls ∧
        (options.verifyStack = true →
          ∃ depth, verify (Stacklet.linked options.minTableDensity calls).toArray = .ok depth)) ∧
    ∀ code, (ofCalls calls).finish options name maxLocals fields = .ok code →
      code.instrs = (Stacklet.linked options.minTableDensity calls).toArray ∧
      code.instrs.size = codeSize calls ∧
      ∀ before call after, calls = before ++ call :: after →
        call.Linked calls code.instrs (codeSize before) := by
  constructor
  · constructor
    · rintro ⟨code, h⟩
      obtain ⟨assembled, -, -, -, verified⟩ := finish_eq_ok_iff.1 h
      obtain ⟨binds, refers, instrs⟩ := instrs_eq_ok_iff_linked.1 assembled
      refine ⟨binds, refers, fun wanted => ⟨code.maxStack, ?_⟩⟩
      rw [if_pos wanted] at verified
      rw [← instrs]
      exact verified
    · rintro ⟨binds, refers, verified⟩
      obtain ⟨depth, verified⟩ : ∃ depth, if options.verifyStack then
          verify (Stacklet.linked options.minTableDensity calls).toArray = .ok depth else depth = 0 := by
        split
        · next wanted => exact verified wanted
        · exact ⟨0, rfl⟩
      refine ⟨⟨name, (Stacklet.linked options.minTableDensity calls).toArray, depth, maxLocals, fields⟩, ?_⟩
      exact finish_eq_ok_iff.2
        ⟨instrs_eq_ok_iff_linked.2 ⟨binds, refers, rfl⟩, rfl, rfl, rfl, verified⟩
  · intro code h
    obtain ⟨assembled, -⟩ := finish_eq_ok_iff.1 h
    obtain ⟨binds, refers, instrs⟩ := instrs_eq_ok_iff_linked.1 assembled
    have instrs : code.instrs = (Stacklet.linked options.minTableDensity calls).toArray := by
      rw [← instrs]
    refine ⟨instrs, ?_, fun before call after split => ?_⟩
    · exact (instrs_placed assembled).2
    · rw [instrs]
      exact linked_of_split options.minTableDensity binds refers split

/-- Calls with a switch that has a key twice, the second time with a label that is never made, with a branch
around it and a jump back. -/
def keyTwice : List Call :=
  [.makeLabel, .makeLabel, .bind ⟨0⟩, .add (.iconst 3), .jump (.ifZero .lt) ⟨1⟩, .add (.iconst 3),
    .switch [3, 3] [⟨0⟩, ⟨7⟩] ⟨1⟩, .bind ⟨1⟩, .jump .goto ⟨0⟩]

/-- They assemble, for the second label of a key is not referred to. -/
theorem keyTwice_linked :
    ∃ code, (ofCalls keyTwice).finish ⟨0.5, true⟩ "Twice" 0 [] = .ok code ∧
      code.instrs.toList.map (·.offsets) = [[], [3], [], [1, -3], [-4]] ∧
      code.instrs[1]? = some (.ifZero .lt 3) ∧ code.instrs[4]? = some (.goto (-4)) ∧
      code.instrs.size = codeSize keyTwice ∧
      ∀ before call after, keyTwice = before ++ call :: after →
        call.Linked keyTwice code.instrs (codeSize before) := by
  have assembled : ofCalls keyTwice =
      ⟨#[.plain (.iconst 3), .jump (.ifZero .lt) ⟨1⟩, .plain (.iconst 3), .switch [(3, ⟨0⟩)] ⟨1⟩,
        .jump .goto ⟨0⟩], #[some 0, some 4], none⟩ := by
    have sorted : Arm.sorted [3, 3] [⟨0⟩, ⟨7⟩] = [(3, ⟨0⟩)] := by
      simp [Arm.sorted, List.mergeSort, List.MergeSort.Internal.splitInTwo, Arm.put]
    rw [← sorted]
    rfl
  have offsets : ((ofCalls keyTwice).finish ⟨0.5, true⟩ "Twice" 0 []).toOption.map
      (·.instrs.toList.map (·.offsets)) = some [[], [3], [], [1, -3], [-4]] := by
    rw [assembled]
    decide +kernel
  cases finished : (ofCalls keyTwice).finish ⟨0.5, true⟩ "Twice" 0 [] with
  | error e => rw [finished] at offsets; cases offsets
  | ok code =>
    rw [finished] at offsets
    have offsets := Option.some.inj offsets
    obtain ⟨-, size, linked⟩ := (finish_linked keyTwice ⟨0.5, true⟩ "Twice" 0 []).2 code finished
    have listed (pc : Nat) : code.instrs[pc]?.map (·.offsets) = [[], [3], [], [1, -3], [-4]][pc]? := by
      rw [← offsets, List.getElem?_map, Array.getElem?_toList]
    obtain ⟨around, branch, -⟩ := linked (keyTwice.take 4) (.jump (.ifZero .lt) ⟨1⟩) _ rfl
    obtain ⟨back, jump, -⟩ := linked (keyTwice.take 8) (.jump .goto ⟨0⟩) _ rfl
    refine ⟨code, rfl, offsets, ?_, ?_, size, linked⟩
    · have offset := listed 1
      rw [show code.instrs[1]? = _ from branch] at offset ⊢
      cases offset
      rfl
    · have offset := listed 4
      rw [show code.instrs[4]? = _ from jump] at offset ⊢
      cases offset
      rfl

end Assembler

end Stacklet
