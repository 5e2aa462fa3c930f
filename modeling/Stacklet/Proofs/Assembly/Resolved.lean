import Stacklet.Proofs.Assembly.Placed

/-!
# What is assembled, and when

Calls assemble when no label was bound wrongly and every label that stands in a draft has an offset; each
instruction is then its draft with the offsets put in (`instrs_eq_ok_iff`). Verification, if it is wanted,
comes last (`finish_eq_ok_iff`).
-/

namespace Stacklet

/-- The drafts of calls have increasing keys. -/
theorem Call.ordered_draft {call : Call} {d : Draft} (h : call.draft? = some d) : d.Ordered := by
  cases call with
  | makeLabel | bind => cases h
  | add | inc | jump => cases h; trivial
  | switch keys labels other => cases h; exact Arm.increasing_sorted keys labels

namespace Assembler

theorem drafts_call (a : Assembler) (call : Call) :
    (a.call call).drafts.toList = a.drafts.toList ++ call.draft?.toList := by
  cases call with
  | makeLabel => exact (List.append_nil _).symm
  | bind l =>
    change (a.bind l).drafts.toList = _
    unfold Assembler.bind
    split <;> exact (List.append_nil _).symm
  | add | inc | jump | switch => exact Array.toList_push

/-- The drafts are those of the calls in order. -/
theorem drafts_ofCalls (calls : List Call) :
    (ofCalls calls).drafts.toList = calls.filterMap Call.draft? := by
  have folded (a : Assembler) :
      (calls.foldl call a).drafts.toList = a.drafts.toList ++ calls.filterMap Call.draft? := by
    induction calls generalizing a with
    | nil => exact (List.append_nil _).symm
    | cons call calls ih =>
      rw [List.foldl_cons, ih, drafts_call, List.append_assoc]
      cases hd : call.draft? <;> simp [hd]
  exact folded empty

theorem ordered_ofCalls {calls : List Call} {pc : Nat} {d : Draft}
    (h : (ofCalls calls).drafts[pc]? = some d) : d.Ordered := by
  have mem : d ∈ calls.filterMap Call.draft? := by
    rw [← drafts_ofCalls, Array.mem_toList_iff]
    exact Array.mem_of_getElem? h
  obtain ⟨call, -, hd⟩ := List.mem_filterMap.1 mem
  exact Call.ordered_draft hd

/-- Whether all labels that stand in drafts have offsets from there. -/
def Located (a : Assembler) : Prop :=
  ∀ (pc : Nat) (d : Draft), a.drafts[pc]? = some d →
    ∀ l ∈ d.mentions, ∃ offset, a.offset pc l = .ok offset

/-- The drafts with the offsets put in. -/
def linked (a : Assembler) (minDensity : Float) : List Instr :=
  a.drafts.toList.zipIdx.map fun (d, pc) => d.instr minDensity (a.offsetTo pc)

/-- What calls are assembled to, and when. -/
theorem instrs_eq_ok_iff {calls : List Call} {minDensity : Float} {instrs : List Instr} :
    (ofCalls calls).instrs minDensity = .ok instrs ↔
      (ofCalls calls).misbound = none ∧ (ofCalls calls).Located ∧
        instrs = (ofCalls calls).linked minDensity := by
  have listed {pc : Nat} {d : Draft} :
      (d, pc) ∈ (ofCalls calls).drafts.toList.zipIdx ↔ (ofCalls calls).drafts[pc]? = some d := by
    rw [List.mk_mem_zipIdx_iff_getElem?, Array.getElem?_toList]
  have resolved (located : (ofCalls calls).Located) :
      (ofCalls calls).drafts.toList.zipIdx.mapM
        (fun (d, pc) => (ofCalls calls).resolve minDensity pc d) =
        .ok ((ofCalls calls).linked minDensity) :=
    mapM_eq_ok fun (d, pc) mem => resolve_of_offsets minDensity (located pc d (listed.1 mem))
  unfold Assembler.instrs
  cases (ofCalls calls).misbound with
  | some e => exact ⟨nofun, fun h => nomatch h.1⟩
  | none =>
    constructor
    · intro h
      have located : (ofCalls calls).Located := by
        intro pc d hd
        obtain ⟨i, -, hi⟩ := exists_of_mapM h (listed.2 hd)
        exact offsets_of_resolve (ordered_ofCalls hd) hi
      refine ⟨rfl, located, ?_⟩
      exact Except.ok.inj (h.symm.trans (resolved located))
    · rintro ⟨-, located, rfl⟩
      exact resolved located

/-- What assembling ends with, and when. -/
theorem finish_eq_ok_iff {a : Assembler} {options : AssemblyOptions} {name : String} {maxLocals : UInt16}
    {fields : List FieldDecl} {code : Code} :
    a.finish options name maxLocals fields = .ok code ↔
      a.instrs options.minTableDensity = .ok code.instrs.toList ∧
      code.name = name ∧ code.maxLocals = maxLocals ∧ code.fields = fields ∧
      if options.verifyStack then verify code.instrs = .ok code.maxStack else code.maxStack = 0 := by
  constructor
  · intro h
    obtain ⟨instrs, assembled, h⟩ := except_bind_eq_ok h
    simp only at h
    split at h
    · next wanted =>
      cases verified : verify instrs.toArray with
      | error e => rw [verified] at h; cases h
      | ok m =>
        rw [verified] at h
        cases h
        exact ⟨assembled, rfl, rfl, rfl, by rw [if_pos wanted]; exact verified⟩
    · next unwanted =>
      cases h
      exact ⟨assembled, rfl, rfl, rfl, by rw [if_neg unwanted]⟩
  · rintro ⟨assembled, rfl, rfl, rfl, verified⟩
    obtain ⟨name, instrs, maxStack, maxLocals, fields⟩ := code
    rw [finish, assembled]
    change (if options.verifyStack then _ else _) = _
    simp only at verified
    split at verified
    · next wanted =>
      rw [if_pos wanted]
      simp only [verified]
      rfl
    · next unwanted =>
      rw [if_neg unwanted, verified]
      rfl

end Assembler

end Stacklet
