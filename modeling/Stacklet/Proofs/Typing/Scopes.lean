import Stacklet.Proofs.Typing.CheckedExpr
import Stacklet.Proofs.Typing.Derivation
import Stacklet.Proofs.Typing.Program
import Stacklet.Proofs.Typing.Resolution
import Stacklet.Proofs.Typing.Rules

/-!
# Scopes around a check

The check of a statement leaves the fields and the outer scopes as they are and only adds to the innermost scope,
where it adds just the names that the statement declares for what follows. Pieces of a program do so one after the
other, and what is checked in a scope of its own adds nothing (`Checks.grows`). So names resolve behind a statement
as they do in front of it, unless it is a declaration or a switch (`check_scopes`).
-/

namespace Stacklet

namespace Names

/-- The names `names'` are those of `names` with locals for some further names in the innermost scope. -/
structure Grows (names : Names) (added : List String) (names' : Names) : Prop where
  fields : names'.fields = names.fields
  outer : names'.outer = names.outer
  kept : ∀ {name : String} {var : LocalVar}, names.innermost[name]? = some var → names'.innermost[name]? = some var
  mem_iff : ∀ {name : String}, name ∈ names'.innermost ↔ name ∈ names.innermost ∨ name ∈ added
  slots : names.nextSlot ≤ names'.nextSlot

theorem le_slotAfter (slot : UInt16) : slot ≤ slotAfter slot := by
  rw [UInt16.le_iff_toNat_le, toNat_slotAfter]
  have := slot.toNat_lt
  omega

theorem declare?_eq_none_iff {names : Names} {name : String} {ty : Ty} :
    names.declare? name ty = none ↔ name ∈ names.innermost := by
  unfold declare?
  by_cases taken : name ∈ names.innermost
  · rw [if_pos taken]
    exact iff_of_true rfl taken
  · rw [if_neg taken]
    exact iff_of_false (Option.some_ne_none _) taken

theorem lookup?_openScope (names : Names) (name : String) :
    names.openScope.lookup? name = names.lookup? name := by
  simp [lookup?, local?, scopes, openScope, field?]

namespace Grows

variable {names names' names'' : Names} {added added' : List String}

theorem refl (names : Names) : names.Grows [] names where
  fields := rfl
  outer := rfl
  kept := id
  mem_iff := by simp
  slots := UInt16.le_refl _

theorem append (h : names.Grows added names') (h' : names'.Grows added' names'') :
    names.Grows (added ++ added') names'' where
  fields := h'.fields.trans h.fields
  outer := h'.outer.trans h.outer
  kept found := h'.kept (h.kept found)
  mem_iff := by
    intro name
    rw [h'.mem_iff, h.mem_iff, List.mem_append, or_assoc]
  slots := UInt16.le_trans h.slots h'.slots

/-- What is added in a scope of its own goes with it. -/
theorem inScope (h : names.openScope.Grows added names') : names.Grows [] names'.closeScope := by
  rw [closeScope_eq (show names'.outer = names.innermost :: names.outer from h.outer)]
  exact ⟨h.fields, rfl, id, by simp, h.slots⟩

theorem declare {name : String} {ty : Ty} {var : LocalVar} (h : names.declare? name ty = some (var, names')) :
    names.Grows [name] names' := by
  have free : name ∉ names.innermost := by
    rw [← @declare?_eq_none_iff names name ty, h]
    exact Option.some_ne_none _
  obtain ⟨rfl, rfl⟩ := declare?_eq_some h
  refine ⟨rfl, rfl, ?_, ?_, le_slotAfter _⟩
  · intro other var found
    rw [Std.TreeMap.getElem?_insert, if_neg]
    · exact found
    · intro same
      rw [← Std.LawfulEqOrd.eq_of_compare same, Std.TreeMap.getElem?_eq_none free] at found
      cases found
  · intro other
    rw [Std.TreeMap.mem_insert, List.mem_singleton, Std.LawfulEqOrd.compare_eq_iff_eq, or_comm, eq_comm]

/-- A name that the innermost scope has already stays as it is. -/
theorem redeclare {name : String} {ty : Ty} (h : names.declare? name ty = none) : names.Grows [name] names where
  fields := rfl
  outer := rfl
  kept := id
  mem_iff := by
    intro other
    rw [List.mem_singleton]
    constructor
    · exact .inl
    · rintro (old | rfl)
      · exact old
      · exact declare?_eq_none_iff.1 h
  slots := UInt16.le_refl _

/-- A name that is not added stands for what it stood for in the innermost scope. -/
theorem getElem?_innermost (h : names.Grows added names') {name : String} (other : name ∉ added) :
    names'.innermost[name]? = names.innermost[name]? := by
  cases found : names.innermost[name]? with
  | some var => exact h.kept found
  | none =>
    apply Std.TreeMap.getElem?_eq_none
    rw [h.mem_iff, Std.TreeMap.mem_iff_isSome_getElem?, found]
    exact not_or_intro Bool.false_ne_true other

theorem lookup? (h : names.Grows added names') {name : String} (other : name ∉ added) :
    names'.lookup? name = names.lookup? name := by
  simp only [Names.lookup?, local?, scopes, field?, List.findSome?_cons, h.outer, h.fields,
    h.getElem?_innermost other]

end Grows

end Names

namespace CheckedPiece

/-- The names that a piece of a program adds to its scope. -/
def declaredNames : CheckedPiece → List String
  | .stmt s _ => s.declares.map (·.1)
  | .all ss _ => (Source.Stmt.allDeclares ss).map (·.1)
  | .groups _ _ gs _ => (Source.Stmt.groupDeclares gs).map (·.1)

end CheckedPiece

namespace Source.Stmt

mutual

/-- What a statement adds to its scope is among the locals that it declares. -/
theorem declares_subset (s : Stmt) : s.declares ⊆ s.locals := by
  match s with
  | .declare .. => exact List.Subset.refl _
  | .switch _ _ groups => exact groupDeclares_subset groups
  | .block .. | .expr .. | .ifElse .. | .whileDo .. | .doWhile .. | .forLoop .. | .breakOut _ | .continueLoop _
  | .ret .. | .empty _ => exact List.nil_subset _

theorem allDeclares_subset (ss : List Stmt) : allDeclares ss ⊆ allLocals ss := by
  match ss with
  | [] => exact List.nil_subset _
  | s :: rest =>
    intro d mem
    rw [allDeclares, List.mem_append] at mem
    rw [allLocals, List.mem_append]
    exact mem.imp (declares_subset s ·) (allDeclares_subset rest ·)

theorem groupDeclares_subset (gs : List (SwitchGroup CaseLabel Stmt)) :
    groupDeclares gs ⊆ groupLocals gs := by
  match gs with
  | [] => exact List.nil_subset _
  | ⟨_, stmts⟩ :: rest =>
    intro d mem
    rw [groupDeclares, List.mem_append] at mem
    rw [groupLocals, List.mem_append]
    exact mem.imp (allDeclares_subset stmts ·) (groupDeclares_subset rest ·)

end

end Source.Stmt

namespace Checks

variable {env : Surroundings} {piece : CheckedPiece} {st st' : CheckState} {ds : List Diagnostic}

/-- The check of a piece of a program adds the names that it declares, whatever it reports. -/
theorem grows (h : Checks env piece st ds st') : st.names.Grows piece.declaredNames st'.names := by
  induction h with
  | block _ ih => exact ih.inScope
  | declare _ free => exact .declare free
  | redeclare _ taken => exact .redeclare taken
  | expr => exact .refl _
  | ifThen _ _ ih => exact ih.inScope
  | ifElse _ _ _ iht ihe => exact iht.inScope.append ihe.inScope
  | whileDo _ _ ih => exact ih.inScope
  | doWhile _ _ ih => exact ih.inScope
  | forEmpty _ _ _ ihi ihu => exact (ihi.append ihu).inScope
  | forLoop _ _ _ _ ihi ihu ihb => exact ((ihi.append ihu).append ihb.inScope).inScope
  | switch _ _ ih => exact ih
  | breakOut | continueLoop | ret | empty | nil | noGroups => exact .refl _
  | cons _ _ ihs ihr =>
    simp only [CheckedPiece.declaredNames, Source.Stmt.allDeclares, List.map_append]
    exact ihs.append ihr
  | group _ _ _ ihs ihr =>
    simp only [CheckedPiece.declaredNames, Source.Stmt.groupDeclares, List.map_append]
    exact ihs.append ihr

/-- A name that a piece does not declare stands for the same behind it. -/
theorem lookup?_eq {name : String} (h : Checks env piece st ds st') (undeclared : name ∉ piece.declared.map (·.1)) :
    st'.names.lookup? name = st.names.lookup? name := by
  apply h.grows.lookup?
  intro mem
  apply undeclared
  cases piece with
  | stmt s => exact List.map_subset _ s.declares_subset mem
  | all ss => exact List.map_subset _ (Source.Stmt.allDeclares_subset ss) mem
  | groups _ _ gs => exact List.map_subset _ (Source.Stmt.groupDeclares_subset gs) mem

/-- A scope leaves nothing behind. -/
theorem lookup?_closed (h : Checks env piece st.opened ds st') (name : String) :
    st'.closed.names.lookup? name = st.names.lookup? name :=
  h.grows.inScope.lookup? List.not_mem_nil

end Checks

namespace Source.Stmt

/-- Whether a statement is one of those that may add names to the scope in which they stand. -/
def addsNames : Stmt → Bool
  | .declare .. | .switch .. => true
  | .block .. | .expr .. | .ifElse .. | .whileDo .. | .doWhile .. | .forLoop .. | .breakOut _ | .continueLoop _
  | .ret .. | .empty _ => false

theorem declares_of_not_addsNames {s : Stmt} (h : s.addsNames = false) : s.declares = [] := by
  cases s with
  | declare | switch => cases h
  | _ => rfl

/-- The check of a statement respects scopes, from any state, after any diagnostics and whatever it reports. -/
theorem check_scopes (env : Surroundings) (s : Stmt) (st : CheckState) (ds : Diagnostics) :
    let names := st.names
    let names' := (Reporting.run ((s.check env).run st) ds).1.2.names
    names'.depth = names.depth ∧ names'.fields = names.fields ∧ names'.outer = names.outer ∧
    (∀ (name : String) (var : LocalVar), names.innermost[name]? = some var → names'.innermost[name]? = some var) ∧
    names.nextSlot ≤ names'.nextSlot ∧
    (∀ name : String, name ∈ names'.innermost ↔ name ∈ names.innermost ∨ name ∈ s.declares.map (·.1)) ∧
    (s.addsNames = false → ∀ name, names'.lookup? name = names.lookup? name) := by
  intro names names'
  have grows : names.Grows (s.declares.map (·.1)) names' := by
    simp only [names', Reporting.Steady.run_eq]
    exact (check_checks env s (Reporting.gives_self _)).grows
  refine ⟨?_, grows.fields, grows.outer, fun _ _ => grows.kept, grows.slots, fun _ => grows.mem_iff, ?_⟩
  · rw [Names.depth, Names.depth, Names.scopes, Names.scopes, grows.outer]
    rfl
  · intro other name
    apply grows.lookup?
    rw [declares_of_not_addsNames other]
    exact List.not_mem_nil

end Source.Stmt

end Stacklet
