import Stacklet.Proofs.Typing.DecidedStmt
import Stacklet.Proofs.Typing.Program

/-!
# The check decides which programs are valid

A program that declares nothing with the wildcard type passes the check exactly if it is valid by the rules
(`isOk_iff_valid`).
-/

namespace Stacklet

/-- Names that stand for fields, which have names of their own. -/
structure Names.Holds (names : Names) (fields : List FieldDecl) : Prop where
  types : ∀ name ty, (names.field? name).map (·.ty) = some ty ↔ ⟨name, ty⟩ ∈ fields
  apart : (fields.map (·.name)).Nodup

namespace Names.Holds

variable {names names' : Names} {fields : List FieldDecl} {field : FieldDecl} {index : UInt16}

theorem mem_fields_iff (h : names.Holds fields) (name : String) :
    name ∈ names.fields ↔ name ∈ fields.map (·.name) := by
  rw [List.mem_map, Std.TreeMap.mem_iff_isSome_getElem?]
  constructor
  · intro found
    obtain ⟨ref, href⟩ := Option.isSome_iff_exists.1 found
    exact ⟨⟨name, ref.ty⟩, (h.types name ref.ty).1 (congrArg (Option.map (·.ty)) href), rfl⟩
  · rintro ⟨⟨_, ty⟩, mem, rfl⟩
    have found := (h.types _ ty).2 mem
    cases href : names.field? _ with
    | none => rw [href] at found; cases found
    | some ref => exact Option.isSome_iff_exists.2 ⟨ref, href⟩

theorem addField?_eq_none_iff (h : names.Holds fields) :
    names.addField? index field = none ↔ ¬((fields ++ [field]).map (·.name)).Nodup := by
  have fresh : ((fields ++ [field]).map (·.name)).Nodup ↔ field.name ∉ names.fields := by
    rw [List.map_append, List.map_singleton, nodup_snoc_iff, h.mem_fields_iff]
    exact and_iff_right h.apart
  rw [fresh, Classical.not_not, addField?]
  split
  · next taken => exact ⟨fun _ => taken, fun _ => rfl⟩
  · next free => exact ⟨nofun, fun taken => absurd taken free⟩

theorem addField (h : names.Holds fields) (added : names.addField? index field = some names') :
    names'.Holds (fields ++ [field]) := by
  have apart : ((fields ++ [field]).map (·.name)).Nodup := by
    refine Classical.not_not.1 fun clash => ?_
    rw [h.addField?_eq_none_iff.2 clash] at added
    cases added
  unfold addField? at added
  split at added
  · cases added
  next free =>
  cases added
  refine ⟨fun name ty => ?_, apart⟩
  rw [field?, Std.TreeMap.getElem?_insert, List.mem_append, List.mem_singleton]
  by_cases same : field.name = name
  · -- No earlier field has the name of the new one.
    subst same
    have fresh : ⟨field.name, ty⟩ ∉ fields := fun mem =>
      free ((h.mem_fields_iff field.name).2 (List.mem_map.2 ⟨_, mem, rfl⟩))
    rw [if_pos Std.ReflCmp.compare_self, or_iff_right fresh]
    constructor
    · rintro ⟨⟩
      rfl
    · intro same
      exact congrArg (fun field => some field.ty) same.symm
  · have other : compare field.name name ≠ .eq := fun same' => same (Std.LawfulEqOrd.eq_of_compare same')
    rw [if_neg other, or_iff_left fun last => same (congrArg FieldDecl.name last.symm)]
    exact h.types name ty

end Names.Holds

namespace Source.Program

/-- Fields are entered without a report exactly if they have names of their own, together with those
entered before. -/
theorem enterFields_decides {names : Names} {before : List FieldDecl} (h : names.Holds before) (index : Nat)
    (fields : List FieldDecl) :
    ((enterFields names index fields).reports = [] ↔ ((before ++ fields).map (·.name)).Nodup) ∧
    (((before ++ fields).map (·.name)).Nodup →
      (enterFields names index fields).value.Holds (before ++ fields)) := by
  induction fields generalizing names before index with
  | nil =>
    rw [List.append_nil]
    exact ⟨⟨fun _ => h.apart, fun _ => rfl⟩, fun _ => h⟩
  | cons field fields ih =>
    have shift : before ++ field :: fields = (before ++ [field]) ++ fields := by
      rw [List.append_assoc, List.singleton_append]
    rw [shift]
    cases added : names.addField? (UInt16.ofNat (min index 65535)) field with
    | none =>
      have clash : ¬((before ++ [field] ++ fields).map (·.name)).Nodup := fun apart => by
        rw [List.map_append] at apart
        exact h.addField?_eq_none_iff.1 added (apart.sublist (List.sublist_append_left _ _))
      rw [reports_enterFields_taken added]
      exact ⟨⟨fun silent => absurd silent (List.cons_ne_nil _ _), fun apart => absurd apart clash⟩,
        fun apart => absurd apart clash⟩
    | some names' =>
      rw [enterFields, added]
      exact ih (h.addField added) (index + 1)

/-- A program passes the check exactly if it is valid. -/
theorem isOk_iff_valid (p : Program) (limit : Option Nat) (locals : ∀ ty ∈ p.localTypes, ty ≠ .any)
    (fields : ∀ field ∈ p.fields, field.ty ≠ .any) (returns : p.returns ≠ some .any) :
    (p.analyze limit).isOk ↔ p.Valid := by
  have unknown (name : String) : Names.empty.field? name = none := Std.TreeMap.getElem?_emptyc
  have nothing : Names.empty.Holds [] := by
    refine ⟨fun name ty => ?_, .nil⟩
    rw [unknown]
    simp
  obtain ⟨entered, held⟩ := enterFields_decides nothing 0 p.fields
  have types : ∀ d ∈ p.locals, d.2 ≠ .any := fun d mem => locals d.2 (List.mem_map_of_mem mem)
  have body := Stmt.checkAll_decides ⟨p.returns, []⟩ returns p.body types ⟨[], p.fields⟩
  rw [isOk_analyze_iff, reports_check, List.append_eq_nil_iff, entered]
  refine and_congr_right fun apart => ?_
  -- The body starts in a scope without locals, over all fields.
  have start : (CheckState.mk (enterFields .empty 0 p.fields).value 0).names.Tracks ⟨[], p.fields⟩ [] [] := by
    obtain ⟨scopes, -, -⟩ := enterFields_names .empty 0 p.fields
    obtain ⟨innermost, outer⟩ := List.cons.inj scopes
    refine ⟨⟨fun name => ?_, (held apart).types, ⟨fun _ mem => absurd mem List.not_mem_nil, fields⟩⟩,
      fun name => ?_, .nil, outer⟩
    · rw [Names.local?, scopes, Names.scopes, List.findSome?_cons,
        show Names.empty.innermost[name]? = none from Std.TreeMap.getElem?_emptyc]
      rfl
    · rw [innermost]
      exact ⟨fun mem => absurd mem Std.TreeMap.not_mem_emptyc, fun mem => absurd mem List.not_mem_nil⟩
  exact (body start).1

end Source.Program

/-- A program in which a local hides a field and another local hides that one, a switch declares a local in
one group and uses it in the next, and a loop uses what its update declares. -/
def shadowed : Source.Program where
  name := "Shadowed"
  fields := [⟨"x", .double⟩, ⟨"done", .boolean⟩]
  returns := some .long
  body := [
    .declare 1 "x" .int (some (.literal 1 (.int 3))),
    .block 2 [
      .declare 2 "x" .long (some (.literal 2 (.long 4))),
      .expr 3 (.assign 3 (.var 3 "x") (.unary 3 .negate (.var 3 "x")))],
    .switch 4 (.var 4 "x") [
      ⟨[.case (.literal 5 (.int 1)), .otherwise], [.declare 5 "y" .long none]⟩,
      ⟨[.case (.unary 6 .negate (.literal 6 (.int 1)))],
        [.expr 6 (.assign 6 (.var 6 "y") (.literal 6 (.long 0))), .breakOut 6]⟩],
    .forLoop 7 [] (some (.unary 7 .not (.field 7 "done"))) [.declare 7 "z" .boolean none]
      (some (.ifElse 8 (.var 8 "z") (.continueLoop 8) (some (.ret 9 (some (.var 9 "y"))))))]

/-- Its twin with one value under two labels: the least int is its own negation. -/
def shadowedTwin : Source.Program :=
  { shadowed with body := shadowed.body ++ [
      .switch 10 (.var 10 "x") [
        ⟨[.case (.literal 10 (.int (-2147483648))),
          .case (.unary 10 .negate (.literal 10 (.int (-2147483648))))], []⟩]] }

/-- The one is valid and the other is not. -/
theorem shadowed_valid :
    ((shadowed.analyze none).isOk = true ∧ shadowed.Valid) ∧
      (shadowedTwin.analyze none).isOk = false ∧ ¬shadowedTwin.Valid := by
  have accepted : (shadowed.analyze none).isOk = true := by decide +kernel
  have rejected : (shadowedTwin.analyze none).isOk = false := by decide +kernel
  have valid := shadowed.isOk_iff_valid none (by decide) (by decide) (by decide)
  have validTwin := shadowedTwin.isOk_iff_valid none (by decide) (by decide) (by decide)
  refine ⟨⟨accepted, valid.1 accepted⟩, rejected, fun holds => ?_⟩
  rw [validTwin.2 holds] at rejected
  cases rejected

end Stacklet
