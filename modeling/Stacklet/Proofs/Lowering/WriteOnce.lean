import Stacklet.Proofs.Lowering.Labels

/-!
# Labels are written once

Lowering knows labels only by the order in which it has asked for them. Whoever takes its calls hands out labels of
some type (`Emitter`), and each call is made with the labels that it stands for (`Emitter.hears`). Whatever emitter
that is, it can take all calls that lowering makes, and it is told to bind each label that it has handed out once
(`labels_written_once`).
-/

namespace Stacklet

/-- A call as an emitter takes it, with labels that it has handed out. -/
inductive Emission (L : Type) where
  | created (label : L)
  | bound (label : L)
  | added (instr : Instr)
  | stepped (slot : UInt16) (delta : Int32)
  | jumped (jump : Jump) (target : L)
  | switched (keys : List Int32) (labels : List L) (other : L)

namespace Emission

variable {L : Type}

/-- The label that is handed out. -/
def created? : Emission L → Option L
  | .created l => some l
  | .bound _ | .added _ | .stepped .. | .jumped .. | .switched .. => none

/-- The labels that are bound or referred to. -/
def refers : Emission L → List L
  | .bound l | .jumped _ l => [l]
  | .switched _ labels other => other :: labels
  | .created _ | .added _ | .stepped .. => []

/-- Whether a label is bound. -/
def isBindOf [DecidableEq L] (l : L) : Emission L → Bool
  | .bound l' => l' == l
  | .created _ | .added _ | .stepped .. | .jumped .. | .switched .. => false

end Emission

section

variable {L : Type}

/-- The labels handed out in the course of calls, the first one first. -/
def createdLabels (heard : List (Emission L)) : List L := heard.filterMap Emission.created?

theorem createdLabels_append (heard new : List (Emission L)) :
    createdLabels (heard ++ new) = createdLabels heard ++ createdLabels new :=
  List.filterMap_append

/-- A call to an emitter that has handed out some labels and would hand out `next` now. None can be made that refers
to a label not handed out yet. -/
def Call.emission? (labels : List L) (next : L) : Call → Option (Emission L)
  | .makeLabel => some (.created next)
  | .bind l => labels[l.id]?.map .bound
  | .add instr => some (.added instr)
  | .inc slot delta => some (.stepped slot delta)
  | .jump j target => labels[target.id]?.map (.jumped j)
  | .switch keys targets other => do
    return .switched keys (← targets.mapM fun l => labels[l.id]?) (← labels[other.id]?)

end

/-- Something that takes calls. The label that it hands out may depend on all that it has heard so far. -/
structure Emitter (L : Type) where
  create : List (Emission L) → L

namespace Emitter

variable {L : Type}

/-- What an emitter hears of calls, after what it has heard before. -/
def hears (E : Emitter L) (heard : List (Emission L)) : List Call → Option (List (Emission L))
  | [] => some []
  | call :: rest => do
    let emission ← call.emission? (createdLabels heard) (E.create heard)
    return emission :: (← E.hears (heard ++ [emission]) rest)

variable {E : Emitter L} {heard new : List (Emission L)} {call : Call} {cs : List Call}

theorem hears_cons_eq_some :
    E.hears heard (call :: cs) = some new ↔
      ∃ emission rest, call.emission? (createdLabels heard) (E.create heard) = some emission ∧
        E.hears (heard ++ [emission]) cs = some rest ∧ emission :: rest = new := by
  simp [hears, Option.bind_eq_some_iff]

end Emitter

/-! ## One call -/

section

variable {L : Type} {labels : List L} {next : L} {call : Call} {emission : Emission L}

theorem exists_mapM_getElem? {ls : List Label} (h : ∀ l ∈ ls, l.id < labels.length) :
    ∃ ls', (ls.mapM fun l => labels[l.id]?) = some ls' := by
  induction ls with
  | nil => exact ⟨[], rfl⟩
  | cons l ls ih =>
    rw [List.forall_mem_cons] at h
    obtain ⟨ls', rest⟩ := ih h.2
    refine ⟨labels[l.id] :: ls', ?_⟩
    rw [List.mapM_cons, rest, List.getElem?_eq_getElem h.1]
    rfl

theorem mem_of_mapM_getElem? {ls : List Label} {ls' : List L} (h : (ls.mapM fun l => labels[l.id]?) = some ls') :
    ∀ l ∈ ls', l ∈ labels := by
  induction ls generalizing ls' with
  | nil =>
    cases h
    exact List.forall_mem_nil _
  | cons l ls ih =>
    simp only [List.mapM_cons, Option.bind_eq_bind, Option.bind_eq_some_iff, Option.pure_def] at h
    obtain ⟨first, found, rest, others, same⟩ := h
    obtain rfl := Option.some.inj same
    rw [List.forall_mem_cons]
    exact ⟨List.mem_of_getElem? found, ih others⟩

namespace Call

/-- A call that mentions labels handed out before can be made. -/
theorem exists_emission (h : ∀ l ∈ call.mentions, l.id < labels.length) (next : L) :
    ∃ emission, call.emission? labels next = some emission := by
  cases call with
  | makeLabel | add | inc => exact ⟨_, rfl⟩
  | bind l =>
    rw [emission?, List.getElem?_eq_getElem (h l List.mem_cons_self)]
    exact ⟨_, rfl⟩
  | jump j target =>
    rw [emission?, List.getElem?_eq_getElem (h target List.mem_cons_self)]
    exact ⟨_, rfl⟩
  | switch keys targets other =>
    rw [mentions, List.forall_mem_cons] at h
    obtain ⟨targets', found⟩ := exists_mapM_getElem? h.2
    rw [emission?, found, List.getElem?_eq_getElem h.1]
    exact ⟨_, rfl⟩

/-- A call hands out a label if it makes one. -/
theorem length_createdLabels_emission (h : call.emission? labels next = some emission) :
    (createdLabels [emission]).length = call.labelsMade := by
  cases call with
  | makeLabel | add | inc =>
    cases h
    rfl
  | bind l | jump j l =>
    obtain ⟨l', -, rfl⟩ := Option.map_eq_some_iff.1 h
    rfl
  | switch keys targets other =>
    simp only [emission?, Option.bind_eq_bind, Option.bind_eq_some_iff, Option.pure_def] at h
    obtain ⟨targets', -, other', -, same⟩ := h
    obtain rfl := Option.some.inj same
    rfl

/-- A call refers to labels handed out before. -/
theorem refers_emission (h : call.emission? labels next = some emission) : ∀ l ∈ emission.refers, l ∈ labels := by
  cases call with
  | makeLabel | add | inc =>
    cases h
    exact List.forall_mem_nil _
  | bind l | jump j l =>
    obtain ⟨l', found, rfl⟩ := Option.map_eq_some_iff.1 h
    rw [Emission.refers, List.forall_mem_singleton]
    exact List.mem_of_getElem? found
  | switch keys targets other =>
    simp only [emission?, Option.bind_eq_bind, Option.bind_eq_some_iff, Option.pure_def] at h
    obtain ⟨targets', found, other', foundOther, same⟩ := h
    obtain rfl := Option.some.inj same
    rw [Emission.refers, List.forall_mem_cons]
    exact ⟨List.mem_of_getElem? foundOther, mem_of_mapM_getElem? found⟩

/-- A call binds the label that its number stands for, as long as labels are different. -/
theorem isBindOf_emission [DecidableEq L] {more : List L} (apart : (labels ++ more).Nodup) {id : Nat} {l : L}
    (stands : (labels ++ more)[id]? = some l) (h : call.emission? labels next = some emission) :
    emission.isBindOf l = call.isBindOf id := by
  cases call with
  | makeLabel | add | inc =>
    cases h
    rfl
  | bind b =>
    obtain ⟨l', found, rfl⟩ := Option.map_eq_some_iff.1 h
    rw [Emission.isBindOf, isBindOf, Bool.eq_iff_iff, beq_iff_eq, beq_iff_eq]
    have here : (labels ++ more)[b.id]? = some l' := by
      rw [List.getElem?_append_left (List.getElem?_eq_some_iff.1 found).1, found]
    constructor
    · intro same
      rw [same] at here
      exact (List.getElem?_inj (List.getElem?_eq_some_iff.1 here).1 apart).1 (here.trans stands.symm)
    · intro same
      rw [same, stands] at here
      exact (Option.some.inj here).symm
  | jump j target =>
    obtain ⟨l', -, rfl⟩ := Option.map_eq_some_iff.1 h
    rfl
  | switch keys targets other =>
    simp only [emission?, Option.bind_eq_bind, Option.bind_eq_some_iff, Option.pure_def] at h
    obtain ⟨targets', -, other', -, same⟩ := h
    obtain rfl := Option.some.inj same
    rfl

end Call

end

/-! ## All calls -/

namespace Emitter

variable {L : Type} {E : Emitter L} {heard new : List (Emission L)} {cs : List Call} {n : Nat}

/-- An emitter can take calls that mention only labels made before, and hands out as many labels as they make. -/
theorem exists_hears (E : Emitter L) (order : Scoped (createdLabels heard).length cs n) :
    ∃ new, E.hears heard cs = some new ∧ (createdLabels (heard ++ new)).length = n := by
  induction cs generalizing heard with
  | nil => exact ⟨[], rfl, by rw [List.append_nil]; exact order.symm⟩
  | cons call cs ih =>
    obtain ⟨emission, told⟩ := call.exists_emission order.1 (E.create heard)
    have rest := order.2
    rw [← Call.length_createdLabels_emission told, ← List.length_append, ← createdLabels_append] at rest
    obtain ⟨new, hears, length⟩ := ih rest
    refine ⟨emission :: new, hears_cons_eq_some.2 ⟨emission, new, told, hears, rfl⟩, ?_⟩
    rw [← length, List.append_assoc]
    rfl

/-- What an emitter hears refers to labels that it has handed out before. -/
theorem refers_of_hears (h : E.hears heard cs = some new) {before after : List (Emission L)} {emission : Emission L}
    (split : new = before ++ emission :: after) : ∀ l ∈ emission.refers, l ∈ createdLabels (heard ++ before) := by
  induction cs generalizing heard new before with
  | nil =>
    cases h
    cases before <;> cases split
  | cons call cs ih =>
    obtain ⟨first, rest, told, hears, rfl⟩ := hears_cons_eq_some.1 h
    cases before with
    | nil =>
      obtain ⟨rfl, -⟩ := List.cons.inj split
      rw [List.append_nil]
      exact Call.refers_emission told
    | cons _ before =>
      obtain ⟨rfl, others⟩ := List.cons.inj split
      rw [List.append_cons]
      exact ih hears others

/-- What an emitter hears binds a label as often as the calls bind its number, as long as labels are different. -/
theorem countP_of_hears [DecidableEq L] (h : E.hears heard cs = some new)
    (apart : (createdLabels (heard ++ new)).Nodup) {id : Nat} {l : L}
    (stands : (createdLabels (heard ++ new))[id]? = some l) :
    new.countP (·.isBindOf l) = binds id cs := by
  induction cs generalizing heard new with
  | nil =>
    cases h
    rfl
  | cons call cs ih =>
    obtain ⟨first, rest, told, hears, rfl⟩ := hears_cons_eq_some.1 h
    have others := ih hears (by rwa [List.append_cons] at apart) (by rwa [List.append_cons] at stands)
    rw [createdLabels_append] at apart stands
    rw [List.countP_cons, others, Call.isBindOf_emission apart stands told, binds, binds, List.countP_cons]

/-- What an emitter hears last. -/
theorem hears_return (h : E.hears heard (cs ++ [.add .ret]) = some new) :
    ∃ front, new = front ++ [.added .ret] := by
  induction cs generalizing heard new with
  | nil =>
    cases h
    exact ⟨[], rfl⟩
  | cons call cs ih =>
    obtain ⟨first, rest, -, hears, rfl⟩ := hears_cons_eq_some.1 h
    obtain ⟨front, rfl⟩ := ih hears
    exact ⟨first :: front, rfl⟩

end Emitter

/-- Calls in the course of which each label is bound once, nothing refers to a label before it is handed out, and the
last instruction is a return, with nothing behind it. -/
structure WrittenOnce {L : Type} [DecidableEq L] (heard : List (Emission L)) : Prop where
  once : ∀ l ∈ createdLabels heard, heard.countP (·.isBindOf l) = 1
  order : ∀ before emission after, heard = before ++ emission :: after →
    ∀ l ∈ emission.refers, l ∈ createdLabels before
  last : ∃ front, heard = front ++ [.added .ret]

/-- Labels are written once. Every emitter can take the calls that lowering makes of a program with at most one
default in each switch; if it hands out no label twice, each is bound once. -/
theorem Typed.Program.labels_written_once (p : Typed.Program) (lowered : p.lower.run.result = .ok ())
    (single : Typed.Stmt.AllSingleDefaults p.body) {L : Type} [DecidableEq L] (E : Emitter L)
    (fresh : ∀ heard, E.hears [] p.lower.run.calls = some heard → (createdLabels heard).Nodup) :
    ∃ heard, E.hears [] p.lower.run.calls = some heard ∧ WrittenOnce heard := by
  obtain ⟨cs, s, lowers, calls⟩ := lowers_of_ok lowered
  have body : Disciplined 0 cs s.labels := (lowers.labelsIn nofun single nofun).disciplined rfl
  have disciplined : Disciplined 0 p.lower.run.calls s.labels := by
    rw [calls]
    exact body.append (.plain rfl)
  have order : Scoped (createdLabels ([] : List (Emission L))).length p.lower.run.calls s.labels := disciplined.order
  obtain ⟨heard, hears, length⟩ := E.exists_hears order
  refine ⟨heard, hears, ?_, ?_, ?_⟩
  · intro l mem
    obtain ⟨id, stands⟩ := List.mem_iff_getElem?.1 mem
    have inside : id < s.labels := length ▸ (List.getElem?_eq_some_iff.1 stands).1
    rw [Emitter.countP_of_hears hears (fresh heard hears) stands, disciplined.once,
      if_pos ⟨Nat.zero_le id, inside⟩]
  · intro before emission after split
    exact Emitter.refers_of_hears hears split
  · rw [calls] at hears
    exact Emitter.hears_return hears

/-- A loop on a short-circuit condition, with a switch inside that repeats the loop, and behind it a jump that leaves
the loop once more. No check gives such a tree. -/
def revisited : Typed.Program where
  name := "Revisited"
  fields := [⟨"ready", .boolean⟩]
  returns := none
  maxLocals := 2
  body := [
    .whileDo 1 0 (.binary 1 .boolean (.logic .and) (.load 1 .boolean (.ofField ⟨0, .boolean⟩))
        (.binary 1 .boolean (.compare .lt) (.load 1 .int (.ofLocal ⟨1, .int⟩)) (.literal 1 .int (.int 9))))
      (.switch 2 1 (.load 2 .int (.ofLocal ⟨1, .int⟩)) [
        ⟨[.case 4, .otherwise], [.continueLoop 3 (some 0)]⟩,
        ⟨[.case 1], [.breakOut 4 (some 1)]⟩]),
    .breakOut 5 (some 0)]

/-- An emitter that hands out the number of calls so far. -/
def tallying : Emitter Nat := ⟨List.length⟩

theorem revisited_written_once :
    revisited.lower.run.result = .ok () ∧ Typed.Stmt.AllSingleDefaults revisited.body ∧
      ∃ heard, tallying.hears [] revisited.lower.run.calls = some heard ∧
        createdLabels heard = [0, 1, 10, 11, 12, 13] ∧ WrittenOnce heard := by
  have lowered : revisited.lower.run.result = .ok () := rfl
  have single : Typed.Stmt.AllSingleDefaults revisited.body := by
    simp [revisited, Typed.Stmt.AllSingleDefaults, Typed.Stmt.SingleDefaults, Typed.Stmt.GroupsSingleDefaults,
      Typed.defaults]
  have labels {heard : List (Emission Nat)} (h : tallying.hears [] revisited.lower.run.calls = some heard) :
      createdLabels heard = [0, 1, 10, 11, 12, 13] := by
    obtain rfl := Option.some.inj h
    rfl
  have fresh (heard : List (Emission Nat)) (h : tallying.hears [] revisited.lower.run.calls = some heard) :
      (createdLabels heard).Nodup := by
    rw [labels h]
    decide
  obtain ⟨heard, hears, once⟩ := revisited.labels_written_once lowered single tallying fresh
  exact ⟨lowered, single, heard, hears, labels hears, once⟩

end Stacklet
