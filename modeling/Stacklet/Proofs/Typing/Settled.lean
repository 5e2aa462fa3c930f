import Stacklet.Proofs.Typing.Program

/-!
# Locals that are written before they are used

A program in which every declaration has a value, and none stands where control may come past it, names a
local only behind its declaration. In the typed tree that means: every expression names locals that were
declared before it in a list around it (`Settled`). What passes the check is of this form
(`check_settled`), for the locals in scope are those declared before.
-/

namespace Stacklet

/-! ## Declarations with values -/

namespace Source.Stmt

/-- Whether a statement is a declaration. -/
def isDeclaration : Stmt → Bool
  | .declare .. => true
  | _ => false

/-- Whether no declaration stands in a list, apart from those inside its statements. -/
def noneDeclared (ss : List Stmt) : Bool := ss.all (!·.isDeclaration)

mutual

/-- Whether every declaration in a statement has a value, and none stands directly in a group of a switch
or in the update of a `for`. -/
def initializes : Stmt → Bool
  | .block _ body => allInitialize body
  | .declare _ _ _ init => init.isSome
  | .ifElse _ _ t none => t.initializes
  | .ifElse _ _ t (some e) => t.initializes && e.initializes
  | .whileDo _ _ body | .doWhile _ body _ => body.initializes
  | .forLoop _ init _ update none => allInitialize init && (noneDeclared update && allInitialize update)
  | .forLoop _ init _ update (some body) =>
    allInitialize init && (noneDeclared update && allInitialize update) && body.initializes
  | .switch _ _ groups => groupsInitialize groups
  | .expr .. | .breakOut _ | .continueLoop _ | .ret .. | .empty _ => true

/-- Whether every declaration in statements has a value. -/
def allInitialize : List Stmt → Bool
  | [] => true
  | s :: rest => s.initializes && allInitialize rest

/-- Whether the groups of a switch declare nothing themselves, and all else in them has a value. -/
def groupsInitialize : List (SwitchGroup CaseLabel Stmt) → Bool
  | [] => true
  | ⟨_, stmts⟩ :: rest => noneDeclared stmts && allInitialize stmts && groupsInitialize rest

end

end Source.Stmt

/-- Whether every local of a program is initialized where it is declared, and declared where control has to
pass. -/
def Source.Program.initializes (p : Source.Program) : Bool := Source.Stmt.allInitialize p.body

/-! ## Settled trees -/

/-- A place of proper type that is a field or one of the locals that are written. -/
structure Place.IsReady (written : List LocalVar) (p : Place) : Prop where
  proper : p.ty ≠ .any
  written : ∀ var, p = .ofLocal var → var ∈ written

namespace Typed.Stmt

/-- The local that a statement writes for those behind it. -/
def adds : Stmt → List LocalVar
  | .declare _ var _ => [var]
  | _ => []

/-- The locals that statements write for those behind them. -/
def allAdds (ss : List Stmt) : List LocalVar := ss.flatMap adds

mutual

/-- Whether a statement names no locals but written ones and those that it writes before. -/
def Settled (written : List LocalVar) : Stmt → Prop
  | .block _ body => AllSettled written body
  | .declare _ _ none => False
  | .declare _ _ (some init) => init.WellTyped (Place.IsReady written)
  | .expr _ e => e.WellTyped (Place.IsReady written)
  | .ifElse _ c t none => c.WellTyped (Place.IsReady written) ∧ t.Settled written
  | .ifElse _ c t (some e) =>
    c.WellTyped (Place.IsReady written) ∧ t.Settled written ∧ e.Settled written
  | .whileDo _ _ c body | .doWhile _ _ body c =>
    c.WellTyped (Place.IsReady written) ∧ body.Settled written
  | .forLoop _ _ init c update body =>
    AllSettled written init ∧ (∀ e ∈ c, e.WellTyped (Place.IsReady (written ++ allAdds init))) ∧
      AllSettled (written ++ allAdds init) update ∧ OptionSettled (written ++ allAdds init) body
  | .switch _ _ d groups => d.WellTyped (Place.IsReady written) ∧ GroupsSettled written groups
  | .ret _ value => ∀ e ∈ value, e.WellTyped (Place.IsReady written)
  | .breakOut .. | .continueLoop .. | .empty _ => True

/-- Whether statements are settled, each behind those before it. -/
def AllSettled (written : List LocalVar) : List Stmt → Prop
  | [] => True
  | s :: rest => s.Settled written ∧ AllSettled (written ++ s.adds) rest

/-- Whether a statement that may be absent is settled. -/
def OptionSettled (written : List LocalVar) : Option Stmt → Prop
  | none => True
  | some s => s.Settled written

/-- Whether the groups of a switch are settled, each as the first one that control comes to. -/
def GroupsSettled (written : List LocalVar) : List (SwitchGroup CaseLabel Stmt) → Prop
  | [] => True
  | ⟨_, stmts⟩ :: rest => AllSettled written stmts ∧ GroupsSettled written rest

end

end Typed.Stmt

/-! ## Checks that settle -/

namespace Names.Known

variable {names : Names} {known known' : Place → Prop}

theorem mono (h : names.Known known) (imp : ∀ p, known p → known' p) : names.Known known' :=
  ⟨fun scope mem _ _ found => imp _ (h.locals scope mem found), fun found => imp _ (h.fields found)⟩

end Names.Known

theorem Place.IsReady.append {written : List LocalVar} {p : Place} (h : p.IsReady written)
    (vars : List LocalVar) : p.IsReady (written ++ vars) :=
  ⟨h.proper, fun var same => List.mem_append_left _ (h.written var same)⟩

namespace Check

/-- What follows when a check reports nothing: it changes no scope but the innermost, and where all names
in scope stand for places that are ready, some fact holds and the names left stand for places that are
ready when further locals are. -/
structure Settles (st st' : CheckState) (vars : List LocalVar) (fact : List LocalVar → Prop) : Prop where
  outer : st'.names.outer = st.names.outer
  fields : st'.names.fields = st.names.fields
  ready : ∀ written, st.names.Known (Place.IsReady written) →
    fact written ∧ st'.names.Known (Place.IsReady (written ++ vars))

namespace Settles

variable {st st₁ st' : CheckState} {vars vars' : List LocalVar} {fact fact' : List LocalVar → Prop}

/-- A check that declares nothing. -/
theorem still (h : ∀ written, st.names.Known (Place.IsReady written) → fact written) :
    Settles st st [] fact := by
  refine ⟨rfl, rfl, fun written known => ⟨h written known, ?_⟩⟩
  rw [List.append_nil]
  exact known

theorem ofExpr {e : Source.Expr} {t : Typed.Expr} (h : (e.check st.names).Gives t []) :
    Settles st st [] fun written => t.WellTyped (Place.IsReady written) :=
  .still fun _ known => wellTyped_of_silent (fun _ ready => ready.proper) known h

theorem imp (h : Settles st st' vars fact) (himp : ∀ written, fact written → fact' written) :
    Settles st st' vars fact' :=
  ⟨h.outer, h.fields, fun written known => ⟨himp written (h.ready written known).1, (h.ready written known).2⟩⟩

/-- One check after another, with the locals of the first. -/
theorem seq (h : Settles st st₁ vars fact) (h' : Settles st₁ st' vars' fact') :
    Settles st st' (vars ++ vars') fun written => fact written ∧ fact' (written ++ vars) := by
  refine ⟨h'.outer.trans h.outer, h'.fields.trans h.fields, fun written known => ?_⟩
  obtain ⟨holds, known₁⟩ := h.ready written known
  obtain ⟨holds', known'⟩ := h'.ready (written ++ vars) known₁
  rw [List.append_assoc] at known'
  exact ⟨⟨holds, holds'⟩, known'⟩

/-- A check that declares nothing before another one. -/
theorem before (h : Settles st st₁ [] fact) (h' : Settles st₁ st' vars fact') :
    Settles st st' vars fun written => fact written ∧ fact' written :=
  (h.seq h').imp fun written both => by
    rw [List.append_nil] at both
    exact both

/-- A check in a scope of its own adds nothing to the names around it. -/
theorem inScope (h : Settles { st with names := st.names.openScope } st₁ vars fact) :
    Settles st { st₁ with names := st₁.names.closeScope } [] fact := by
  have outer : st₁.names.outer = st.names.innermost :: st.names.outer := h.outer
  have fields : st₁.names.fields = st.names.fields := h.fields
  rw [Names.closeScope_eq outer]
  refine ⟨rfl, fields, fun written known => ⟨(h.ready written known.openScope).1, ?_⟩⟩
  rw [List.append_nil]
  refine ⟨known.locals, fun {name field} found => ?_⟩
  have found : st.names.field? name = some field := by
    rw [Names.field?, ← fields]
    exact found
  exact known.fields found

/-- A new number changes no names. -/
theorem fresh {target : Target} (h : Settles { st with nextTarget := target } st' vars fact) :
    Settles st st' vars fact :=
  ⟨h.outer, h.fields, h.ready⟩

end Settles

/-- A declaration with a value adds its local. -/
theorem settles_declare {st st' : CheckState} {line : Line} {name : String} {ty : Ty} {init : Option Source.Expr}
    {t : Typed.Stmt} (proper : ty ≠ .any) (initialized : init.isSome)
    (h : Silent (declare line name ty init) st t st') : Settles st st' t.adds t.Settled := by
  obtain ⟨init', var, names, hi, hd, rfl, rfl⟩ := silent_declare h
  obtain ⟨rfl, rfl⟩ := Names.declare?_eq_some hd
  refine ⟨rfl, rfl, fun written known => ⟨?_, ?_⟩⟩
  · rcases silent_optional hi with ⟨rfl, -, -⟩ | ⟨e, e', -, rfl, he⟩
    · cases initialized
    · obtain ⟨⟨typed, -⟩, -⟩ := silent_initializer he
      exact wellTyped_of_silent (fun _ ready => ready.proper) known typed
  · refine (known.mono fun p ready => ready.append _).declare hd ⟨proper, ?_⟩
    rintro _ ⟨⟩
    exact List.mem_append_right _ (List.mem_singleton.2 rfl)

/-- The condition of a `for`, if it has one. -/
theorem settles_conditions {st st' : CheckState} {construct : String} {c : Option Source.Expr}
    {c' : Option Typed.Expr} (h : Silent (optional (condition construct) c) st c' st') :
    Settles st st' [] fun written => ∀ e ∈ c', e.WellTyped (Place.IsReady written) := by
  rcases silent_optional h with ⟨-, rfl, rfl⟩ | ⟨e, t, -, rfl, he⟩
  · exact .still fun _ _ _ he => by cases he
  · obtain ⟨⟨tested, -⟩, rfl⟩ := silent_condition he
    exact (Settles.ofExpr tested).imp fun _ typed e he => by cases he; exact typed

theorem settles_return {st st₁ st' : CheckState} {line line' : Line} {returns : Option Ty}
    {value : Option Source.Expr} {value' : Option Typed.Expr} {u : Unit}
    (hv : Silent (optional expr value) st value' st₁) (hr : Silent (result line returns value') st₁ u st') :
    Settles st st' [] (Typed.Stmt.ret line' value').Settled := by
  have same : st' = st₁ := by
    cases returns <;> cases value'
    · exact (silent_pure.1 hr).2
    · exact (not_silent_report hr).elim
    · exact (not_silent_report hr).elim
    · exact (silent_reportUnless.1 hr).2
  subst same
  rcases silent_optional hv with ⟨-, rfl, rfl⟩ | ⟨e, t, -, rfl, he⟩
  · exact .still fun _ _ _ he => by cases he
  · obtain ⟨typed, rfl⟩ := silent_expr.1 he
    exact (Settles.ofExpr typed).imp fun _ typed e he => by cases he; exact typed

end Check

namespace Source.Stmt

open Check

mutual

/-- A statement that initializes its locals is settled if it is checked without a report. Only a declaration
adds a local. -/
theorem check_settled (env : Surroundings) (s : Stmt) (types : ∀ d ∈ s.locals, d.2 ≠ .any)
    (initialized : s.initializes) {st st' : CheckState} {t : Typed.Stmt} (h : Silent (s.check env) st t st') :
    Settles st st' t.adds t.Settled ∧ (s.isDeclaration = false → t.adds = []) := by
  match s with
  | .block line body =>
    simp only [check, silent_bind, silent_pure] at h
    obtain ⟨body', _, hb, rfl, rfl⟩ := h
    obtain ⟨st₁, checked, rfl⟩ := silent_inScope hb
    exact ⟨(checkAll_settled env body types initialized checked).1.inScope, fun _ => rfl⟩
  | .declare line name ty init =>
    exact ⟨settles_declare (types _ List.mem_cons_self) initialized h, nofun⟩
  | .expr line e =>
    simp only [check, silent_bind, silent_reportUnless, silent_expr, silent_pure] at h
    obtain ⟨_, _, ⟨-, rfl⟩, e', _, ⟨he, rfl⟩, rfl, rfl⟩ := h
    exact ⟨.ofExpr he, fun _ => rfl⟩
  | .ifElse line c t none =>
    simp only [check, silent_bind, silent_pure] at h
    obtain ⟨c', _, hc, t', _, ht, rfl, rfl⟩ := h
    obtain ⟨⟨tested, -⟩, rfl⟩ := silent_condition hc
    obtain ⟨st₁, checked, rfl⟩ := silent_inScope ht
    exact ⟨(Settles.ofExpr tested).before (check_settled env t types initialized checked).1.inScope, fun _ => rfl⟩
  | .ifElse line c t (some e) =>
    simp only [check, silent_bind, silent_pure] at h
    obtain ⟨c', _, hc, t', _, ht, e', _, he, rfl, rfl⟩ := h
    obtain ⟨⟨tested, -⟩, rfl⟩ := silent_condition hc
    obtain ⟨st₁, checked, rfl⟩ := silent_inScope ht
    obtain ⟨st₂, checked', rfl⟩ := silent_inScope he
    rw [initializes, Bool.and_eq_true] at initialized
    have left := check_settled env t (fun d mem => types d (List.mem_append_left _ mem)) initialized.1 checked
    have right := check_settled env e (fun d mem => types d (List.mem_append_right _ mem)) initialized.2 checked'
    exact ⟨(Settles.ofExpr tested).before (left.1.inScope.before right.1.inScope), fun _ => rfl⟩
  | .whileDo line c body =>
    simp only [check, silent_bind, silent_pure, silent_freshTarget] at h
    obtain ⟨c', _, hc, _, _, ⟨rfl, rfl⟩, body', _, hb, rfl, rfl⟩ := h
    obtain ⟨⟨tested, -⟩, rfl⟩ := silent_condition hc
    obtain ⟨st₁, checked, rfl⟩ := silent_inScope hb
    have inner := check_settled _ body types initialized checked
    exact ⟨(Settles.ofExpr tested).before inner.1.inScope.fresh, fun _ => rfl⟩
  | .doWhile line body c =>
    simp only [check, silent_bind, silent_pure, silent_freshTarget] at h
    obtain ⟨_, _, ⟨rfl, rfl⟩, body', _, hb, c', _, hc, rfl, rfl⟩ := h
    obtain ⟨st₁, checked, rfl⟩ := silent_inScope hb
    obtain ⟨⟨tested, -⟩, rfl⟩ := silent_condition hc
    have inner := check_settled _ body types initialized checked
    exact ⟨(inner.1.inScope.fresh.before (Settles.ofExpr tested)).imp fun _ both => both.symm, fun _ => rfl⟩
  | .forLoop line init c update none =>
    obtain ⟨st₁, checked, rfl⟩ := silent_inScope h
    simp only [silent_bind, silent_pure, silent_freshTarget] at checked
    obtain ⟨init', _, hi, c', _, hc, _, _, ⟨rfl, rfl⟩, update', _, hu, rfl, rfl⟩ := checked
    simp only [initializes, Bool.and_eq_true] at initialized
    obtain ⟨fromInit, none, fromUpdate⟩ := initialized
    have start := checkAll_settled env init (fun d mem => types d (List.mem_append_left _ mem)) fromInit hi
    have next := checkAll_settled _ update (fun d mem => types d (List.mem_append_right _ mem)) fromUpdate hu
    refine ⟨(start.1.seq ((settles_conditions hc).before next.1.fresh)).inScope.imp ?_, fun _ => rfl⟩
    rintro written ⟨settled, condition, update⟩
    exact ⟨settled, condition, update, trivial⟩
  | .forLoop line init c update (some body) =>
    obtain ⟨st₁, checked, rfl⟩ := silent_inScope h
    simp only [silent_bind, silent_pure, silent_freshTarget] at checked
    obtain ⟨init', _, hi, c', _, hc, _, _, ⟨rfl, rfl⟩, update', _, hu, body', _, hb, rfl, rfl⟩ := checked
    obtain ⟨st₂, checked', rfl⟩ := silent_inScope hb
    simp only [initializes, Bool.and_eq_true] at initialized
    obtain ⟨⟨fromInit, none, fromUpdate⟩, fromBody⟩ := initialized
    have start := checkAll_settled env init (fun d mem => types d (List.mem_append_left _ mem)) fromInit hi
    have next := checkAll_settled _ update
      (fun d mem => types d (List.mem_append_right _ (List.mem_append_left _ mem))) fromUpdate hu
    have inner := check_settled _ body
      (fun d mem => types d (List.mem_append_right _ (List.mem_append_right _ mem))) fromBody checked'
    -- The update adds nothing that the body could name without its having been written.
    have parts := next.1
    rw [next.2 none] at parts
    exact ⟨(start.1.seq ((settles_conditions hc).before (parts.before inner.1.inScope).fresh)).inScope,
      fun _ => rfl⟩
  | .switch line d groups =>
    simp only [check, silent_bind, silent_pure, silent_expr, silent_reportUnless,
      silent_freshTarget] at h
    obtain ⟨d', _, ⟨hd, rfl⟩, _, _, ⟨-, rfl⟩, _, _, ⟨rfl, rfl⟩, groups', _, hg, rfl, rfl⟩ := h
    have inner := checkGroups_settled _ line .none groups types initialized hg
    exact ⟨(Settles.ofExpr hd).before inner.fresh, fun _ => rfl⟩
  | .breakOut line =>
    simp only [check, silent_bind, silent_reportUnless, silent_pure] at h
    obtain ⟨_, _, ⟨-, rfl⟩, rfl, rfl⟩ := h
    exact ⟨.still fun _ _ => trivial, fun _ => rfl⟩
  | .continueLoop line =>
    simp only [check, silent_bind, silent_reportUnless, silent_pure] at h
    obtain ⟨_, _, ⟨-, rfl⟩, rfl, rfl⟩ := h
    exact ⟨.still fun _ _ => trivial, fun _ => rfl⟩
  | .ret line value =>
    simp only [check, silent_bind, silent_pure] at h
    obtain ⟨value', _, hv, _, _, hr, rfl, rfl⟩ := h
    exact ⟨settles_return hv hr, fun _ => rfl⟩
  | .empty line =>
    obtain ⟨rfl, rfl⟩ := silent_pure.1 h
    exact ⟨.still fun _ _ => trivial, fun _ => rfl⟩
termination_by structural s

/-- Statements that initialize their locals are settled if they are checked without a report. -/
theorem checkAll_settled (env : Surroundings) (ss : List Stmt) (types : ∀ d ∈ allLocals ss, d.2 ≠ .any)
    (initialized : allInitialize ss) {st st' : CheckState} {ts : List Typed.Stmt}
    (h : Silent (checkAll env ss) st ts st') :
    Settles st st' (Typed.Stmt.allAdds ts) (Typed.Stmt.AllSettled · ts) ∧
      (noneDeclared ss → Typed.Stmt.allAdds ts = []) := by
  match ss with
  | [] =>
    obtain ⟨rfl, rfl⟩ := silent_pure.1 h
    exact ⟨.still fun _ _ => trivial, fun _ => rfl⟩
  | s :: rest =>
    simp only [checkAll, silent_bind, silent_pure] at h
    obtain ⟨t, _, hs, ts, _, hr, rfl, rfl⟩ := h
    rw [allInitialize, Bool.and_eq_true] at initialized
    have first := check_settled env s (fun d mem => types d (List.mem_append_left _ mem)) initialized.1 hs
    have others := checkAll_settled env rest (fun d mem => types d (List.mem_append_right _ mem)) initialized.2 hr
    rw [Typed.Stmt.allAdds, List.flatMap_cons]
    refine ⟨first.1.seq others.1, fun none => ?_⟩
    rw [noneDeclared, List.all_cons, Bool.and_eq_true, Bool.not_eq_true'] at none
    rw [first.2 none.1]
    exact others.2 none.2
termination_by structural ss

/-- The groups of a switch are settled, as none of them adds a local for the next. -/
theorem checkGroups_settled (env : Surroundings) (line : Line) (seen : LabelsSeen)
    (groups : List (SwitchGroup CaseLabel Stmt)) (types : ∀ d ∈ groupLocals groups, d.2 ≠ .any)
    (initialized : groupsInitialize groups) {st st' : CheckState}
    {groups' : List (SwitchGroup Typed.CaseLabel Typed.Stmt)}
    (h : Silent (checkGroups env line seen groups) st groups' st') :
    Settles st st' [] (Typed.Stmt.GroupsSettled · groups') := by
  match groups with
  | [] =>
    obtain ⟨rfl, rfl⟩ := silent_pure.1 h
    exact .still fun _ _ => trivial
  | ⟨labels, stmts⟩ :: rest =>
    simp only [checkGroups, silent_bind, silent_pure, silent_lift] at h
    obtain ⟨⟨labels', seen'⟩, _, ⟨-, rfl⟩, stmts', _, hs, rest', _, hr, rfl, rfl⟩ := h
    simp only [groupsInitialize, Bool.and_eq_true] at initialized
    obtain ⟨⟨none, fromBlock⟩, fromRest⟩ := initialized
    have block := checkAll_settled env stmts (fun d mem => types d (List.mem_append_left _ mem)) fromBlock hs
    have others := checkGroups_settled env line seen' rest
      (fun d mem => types d (List.mem_append_right _ mem)) fromRest hr
    have first := block.1
    rw [block.2 none] at first
    exact first.before others
termination_by structural groups

end

end Source.Stmt

/-- The body of a program that initializes its locals is settled from the start, if the program is checked
without a report. -/
theorem Source.Program.check_settled {p : Source.Program} (accepted : p.check.reports = [])
    (localTypes : ∀ ty ∈ p.localTypes, ty ≠ .any) (fieldTypes : ∀ field ∈ p.fields, field.ty ≠ .any)
    (initialized : p.initializes) : Typed.Stmt.AllSettled [] p.check.value.body := by
  obtain ⟨st, silent, -⟩ := silent_body accepted
  have known : (enterFields .empty 0 p.fields).value.Known (Place.IsReady []) :=
    known_start fun k field hk => ⟨fieldTypes field (List.mem_of_getElem? hk), nofun⟩
  have types : ∀ d ∈ p.locals, d.2 ≠ .any := fun d mem => localTypes d.2 (List.mem_map_of_mem mem)
  exact ((Stmt.checkAll_settled _ p.body types initialized silent).1.ready [] known).1

end Stacklet
