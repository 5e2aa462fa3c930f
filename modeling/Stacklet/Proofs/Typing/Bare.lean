import Mathlib.Data.List.Forall2
import Stacklet.Proofs.Typing.CheckedExpr
import Stacklet.Proofs.Typing.Derivation

/-!
# The check of bare trees

A bare tree has no lines, and its names may be changed. The check of a program and that of its bare tree go
the same way as long as different names stay different: they report mistakes of the same kinds in the same
order, and what they make of the program differs in lines only (`check_bare`).
-/

namespace Stacklet

/-! ## Bare trees -/

namespace Source

/-- The expression with its names changed and without lines. -/
def Expr.bare (ρ : String → String) : Expr → Expr
  | .literal _ value => .literal 0 value
  | .var _ name => .var 0 (ρ name)
  | .field _ name => .field 0 (ρ name)
  | .unary _ op operand => .unary 0 op (operand.bare ρ)
  | .step _ op operand => .step 0 op (operand.bare ρ)
  | .binary _ op lhs rhs => .binary 0 op (lhs.bare ρ) (rhs.bare ρ)
  | .assign _ target value => .assign 0 (target.bare ρ) (value.bare ρ)

/-- The label with the names of its expression changed and without lines. -/
def CaseLabel.bare (ρ : String → String) : CaseLabel → CaseLabel
  | .case e => .case (e.bare ρ)
  | .otherwise => .otherwise

namespace Stmt

mutual

/-- The statement with its names changed and without lines. -/
def bare (ρ : String → String) : Stmt → Stmt
  | .block _ body => .block 0 (allBare ρ body)
  | .declare _ name ty init => .declare 0 (ρ name) ty (init.map (Expr.bare ρ))
  | .expr _ e => .expr 0 (e.bare ρ)
  | .ifElse _ c t none => .ifElse 0 (c.bare ρ) (t.bare ρ) none
  | .ifElse _ c t (some e) => .ifElse 0 (c.bare ρ) (t.bare ρ) (some (e.bare ρ))
  | .whileDo _ c body => .whileDo 0 (c.bare ρ) (body.bare ρ)
  | .doWhile _ body c => .doWhile 0 (body.bare ρ) (c.bare ρ)
  | .forLoop _ init c update none =>
    .forLoop 0 (allBare ρ init) (c.map (Expr.bare ρ)) (allBare ρ update) none
  | .forLoop _ init c update (some body) =>
    .forLoop 0 (allBare ρ init) (c.map (Expr.bare ρ)) (allBare ρ update) (some (body.bare ρ))
  | .switch _ d groups => .switch 0 (d.bare ρ) (groupsBare ρ groups)
  | .breakOut _ => .breakOut 0
  | .continueLoop _ => .continueLoop 0
  | .ret _ value => .ret 0 (value.map (Expr.bare ρ))
  | .empty _ => .empty 0

/-- The statements with their names changed and without lines. -/
def allBare (ρ : String → String) : List Stmt → List Stmt
  | [] => []
  | s :: rest => s.bare ρ :: allBare ρ rest

/-- The groups of a switch with their names changed and without lines. -/
def groupsBare (ρ : String → String) : List (SwitchGroup CaseLabel Stmt) → List (SwitchGroup CaseLabel Stmt)
  | [] => []
  | ⟨labels, stmts⟩ :: rest => ⟨labels.map (CaseLabel.bare ρ), allBare ρ stmts⟩ :: groupsBare ρ rest

end

end Stmt

/-- The program with the names of its fields, locals and variables changed and without lines. -/
def Program.bare (ρ : String → String) (p : Program) : Program :=
  { p with fields := p.fields.map fun field => ⟨ρ field.name, field.ty⟩, body := Stmt.allBare ρ p.body }

end Source

namespace Typed

/-- The expression without lines. -/
def Expr.bare : Expr → Expr
  | .literal _ ty value => .literal 0 ty value
  | .load _ ty place => .load 0 ty place
  | .negate _ ty operand => .negate 0 ty operand.bare
  | .not _ ty operand => .not 0 ty operand.bare
  | .step _ ty op place => .step 0 ty op place
  | .binary _ ty op lhs rhs => .binary 0 ty op lhs.bare rhs.bare
  | .assign _ ty place value => .assign 0 ty place value.bare
  | .error _ ty => .error 0 ty

@[simp] theorem Expr.ty_bare (e : Expr) : e.bare.ty = e.ty := by cases e <;> rfl

namespace Stmt

mutual

/-- The statement without lines. -/
def bare : Stmt → Stmt
  | .block _ body => .block 0 (allBare body)
  | .declare _ var init => .declare 0 var (init.map Expr.bare)
  | .expr _ e => .expr 0 e.bare
  | .ifElse _ c t none => .ifElse 0 c.bare t.bare none
  | .ifElse _ c t (some e) => .ifElse 0 c.bare t.bare (some e.bare)
  | .whileDo _ target c body => .whileDo 0 target c.bare body.bare
  | .doWhile _ target body c => .doWhile 0 target body.bare c.bare
  | .forLoop _ target init c update none =>
    .forLoop 0 target (allBare init) (c.map Expr.bare) (allBare update) none
  | .forLoop _ target init c update (some body) =>
    .forLoop 0 target (allBare init) (c.map Expr.bare) (allBare update) (some body.bare)
  | .switch _ target d groups => .switch 0 target d.bare (groupsBare groups)
  | .breakOut _ target => .breakOut 0 target
  | .continueLoop _ target => .continueLoop 0 target
  | .ret _ value => .ret 0 (value.map Expr.bare)
  | .empty _ => .empty 0

/-- The statements without lines. -/
def allBare : List Stmt → List Stmt
  | [] => []
  | s :: rest => s.bare :: allBare rest

/-- The groups of a switch without lines. -/
def groupsBare : List (SwitchGroup CaseLabel Stmt) → List (SwitchGroup CaseLabel Stmt)
  | [] => []
  | ⟨labels, stmts⟩ :: rest => ⟨labels, allBare stmts⟩ :: groupsBare rest

end

end Stmt

/-- The program without lines and without the names of its fields. -/
def Program.bare (p : Program) : Program :=
  { p with fields := p.fields.map fun field => ⟨"", field.ty⟩, body := Stmt.allBare p.body }

end Typed

/-! ## Names -/

/-- Scopes that hold the same locals under changed names. -/
def Scope.Alike (ρ : String → String) (scope scope' : Scope) : Prop := ∀ name, scope'[ρ name]? = scope[name]?

/-- Names that stand for the same places when they are changed. -/
structure Names.Alike (ρ : String → String) (names names' : Names) : Prop where
  fields : ∀ name, names'.fields[ρ name]? = names.fields[name]?
  innermost : names.innermost.Alike ρ names'.innermost
  outer : List.Forall₂ (Scope.Alike ρ) names.outer names'.outer
  nextSlot : names'.nextSlot = names.nextSlot

/-- An entry of a map under changed names. -/
theorem getElem?_insert_alike {ρ : String → String} (injective : Function.Injective ρ) {β : Type}
    {map map' : Std.TreeMap String β} (alike : ∀ name, map'[ρ name]? = map[name]?) (entry : String) (b : β)
    (name : String) : (map'.insert (ρ entry) b)[ρ name]? = (map.insert entry b)[name]? := by
  simp only [Std.TreeMap.getElem?_insert, Std.LawfulEqOrd.compare_eq_iff_eq, injective.eq_iff, alike]

/-- A name is taken exactly if it is taken when it is changed. -/
theorem mem_alike {ρ : String → String} {β : Type} {map map' : Std.TreeMap String β}
    (alike : ∀ name, map'[ρ name]? = map[name]?) (name : String) : ρ name ∈ map' ↔ name ∈ map := by
  rw [Std.TreeMap.mem_iff_isSome_getElem?, Std.TreeMap.mem_iff_isSome_getElem?, alike]

namespace Names.Alike

variable {ρ : String → String} {names names' : Names}

theorem empty : Names.Alike ρ .empty .empty where
  fields _ := by rw [Names.empty, Std.TreeMap.getElem?_emptyc, Std.TreeMap.getElem?_emptyc]
  innermost _ := by rw [Names.empty, Std.TreeMap.getElem?_emptyc, Std.TreeMap.getElem?_emptyc]
  outer := .nil
  nextSlot := rfl

theorem openScope (h : names.Alike ρ names') : names.openScope.Alike ρ names'.openScope where
  fields := h.fields
  innermost _ := by rw [Names.openScope, Names.openScope, Std.TreeMap.getElem?_emptyc, Std.TreeMap.getElem?_emptyc]
  outer := .cons h.innermost h.outer
  nextSlot := h.nextSlot

theorem closeScope (h : names.Alike ρ names') : names.closeScope.Alike ρ names'.closeScope := by
  have outer := h.outer
  cases ho : names.outer with
  | nil =>
    rw [ho] at outer
    rw [Names.closeScope, ho, Names.closeScope, List.forall₂_nil_left_iff.1 outer]
    exact h
  | cons scope rest =>
    rw [ho] at outer
    obtain ⟨scope', rest', first, others, ho'⟩ := List.forall₂_cons_left_iff.1 outer
    rw [closeScope_eq ho, closeScope_eq ho']
    exact ⟨h.fields, first, others, h.nextSlot⟩

theorem field? (h : names.Alike ρ names') (name : String) : names'.field? (ρ name) = names.field? name :=
  h.fields name

theorem local? (h : names.Alike ρ names') (name : String) : names'.local? (ρ name) = names.local? name := by
  have found {scopes scopes' : List Scope} (alike : List.Forall₂ (Scope.Alike ρ) scopes scopes') :
      scopes'.findSome? (·[ρ name]?) = scopes.findSome? (·[name]?) := by
    induction alike with
    | nil => rfl
    | cons first _ ih => rw [List.findSome?_cons, List.findSome?_cons, first name, ih]
  exact found (.cons h.innermost h.outer)

theorem lookup? (h : names.Alike ρ names') (name : String) : names'.lookup? (ρ name) = names.lookup? name := by
  rw [Names.lookup?, Names.lookup?, h.local?, h.field?]

variable (injective : Function.Injective ρ)

include injective

theorem declare? (h : names.Alike ρ names') (name : String) (ty : Ty) :
    names'.declare? (ρ name) ty = none ∧ names.declare? name ty = none ∨
    ∃ var after after', names'.declare? (ρ name) ty = some (var, after') ∧
      names.declare? name ty = some (var, after) ∧ after.Alike ρ after' := by
  have same := mem_alike h.innermost name
  by_cases taken : name ∈ names.innermost
  · exact .inl ⟨if_pos (same.2 taken), if_pos taken⟩
  · have free : ρ name ∉ names'.innermost := fun mem => taken (same.1 mem)
    refine .inr ⟨⟨names.nextSlot, ty⟩, _, { names' with
      innermost := names'.innermost.insert (ρ name) ⟨names.nextSlot, ty⟩
      nextSlot := slotAfter names.nextSlot }, ?_, if_neg taken, ?_⟩
    · rw [Names.declare?, if_neg free, h.nextSlot]
    · exact ⟨h.fields, getElem?_insert_alike injective h.innermost name _, h.outer, rfl⟩

theorem addField? (h : names.Alike ρ names') (index : UInt16) (field : FieldDecl) :
    names'.addField? index ⟨ρ field.name, field.ty⟩ = none ∧ names.addField? index field = none ∨
    ∃ after after', names'.addField? index ⟨ρ field.name, field.ty⟩ = some after' ∧
      names.addField? index field = some after ∧ after.Alike ρ after' := by
  have same := mem_alike h.fields field.name
  by_cases taken : field.name ∈ names.fields
  · exact .inl ⟨if_pos (same.2 taken), if_pos taken⟩
  · refine .inr ⟨_, _, if_neg (fun mem => taken (same.1 mem)), if_neg taken, ?_, h.innermost, h.outer, h.nextSlot⟩
    exact getElem?_insert_alike injective h.fields field.name _

end Names.Alike

/-! ## Expressions -/

/-- The kinds of reports. -/
def kinds (ds : List Diagnostic) : List Mistake := ds.map (·.kind)

@[simp] theorem kinds_append (ds ds' : List Diagnostic) : kinds (ds ++ ds') = kinds ds ++ kinds ds' :=
  List.map_append

/-- A check that mirrors another one: its value is that of the other one, changed by a function, and its
reports are of the same kinds. -/
structure Reporting.Mirrors {α β : Type} (f : α → β) (x : Reporting α) (y : Reporting β) : Prop where
  value : y.value = f x.value
  kinds : kinds y.reports = kinds x.reports

namespace Reporting.Mirrors

variable {α β γ δ : Type} {f : α → β} {g : γ → δ} {x : Reporting α} {y : Reporting β}

theorem pure {a : α} {b : β} (h : b = f a) : Mirrors f (pure a) (pure b) := ⟨h, rfl⟩

theorem bind {next : α → Reporting γ} {next' : β → Reporting δ} [x.Steady] [y.Steady] [∀ a, (next a).Steady]
    [∀ b, (next' b).Steady] (h : Mirrors f x y)
    (h' : ∀ a, Mirrors g (next a) (next' (f a))) : Mirrors g (x >>= next) (y >>= next') where
  value := by rw [value_bind, value_bind, h.value, (h' _).value]
  kinds := by rw [reports_bind, reports_bind, kinds_append, kinds_append, h.kinds, h.value, (h' _).kinds]

theorem report {d d' : Diagnostic} (h : d'.kind = d.kind) : Mirrors id (report d) (report d') :=
  ⟨rfl, congrArg ([·]) h⟩

theorem reportUnless {holds : Bool} {d d' : Diagnostic} (h : d'.kind = d.kind) :
    Mirrors id (reportUnless holds d) (reportUnless holds d') := by
  cases holds with
  | true => exact ⟨rfl, rfl⟩
  | false => exact report h

/-- A report of a kind, and a result after it. -/
theorem reported {d d' : Diagnostic} (h : d'.kind = d.kind) {a : α} {b : β} (same : b = f a) :
    Mirrors f (do Stacklet.report d; return a) (do Stacklet.report d'; return b) :=
  (report h).bind fun _ => pure same

end Reporting.Mirrors

open Reporting (Mirrors)

namespace Typed.Expr

theorem checkNegate_bare (line : Line) (e : Expr) : Mirrors bare (e.checkNegate line) (e.bare.checkNegate 0) := by
  unfold checkNegate
  rw [ty_bare]
  split
  · exact .pure rfl
  · split
    · exact .pure rfl
    · exact .reported (by rfl) rfl

theorem checkNot_bare (line : Line) (e : Expr) : Mirrors bare (e.checkNot line) (e.bare.checkNot 0) := by
  unfold checkNot
  rw [ty_bare]
  split
  · exact .pure rfl
  · exact .pure rfl
  · exact .reported (by rfl) rfl

theorem checkStep_bare (line : Line) (op : StepOp) (place : Place) :
    Mirrors bare (checkStep line op place) (checkStep 0 op place) := by
  unfold checkStep
  split
  · exact .pure rfl
  · split
    · exact .pure rfl
    · exact .reported (by rfl) rfl

theorem checkBinary_bare (line : Line) (op : BinaryOp) (lhs rhs : Expr) :
    Mirrors bare (checkBinary line op lhs rhs) (checkBinary 0 op lhs.bare rhs.bare) := by
  unfold checkBinary
  rw [ty_bare, ty_bare]
  split
  · exact .pure rfl
  · split
    · exact .pure rfl
    · exact .reported (by rfl) rfl

theorem checkAssign_bare (line : Line) (place : Place) (value : Expr) :
    Mirrors bare (checkAssign line place value) (checkAssign 0 place value.bare) := by
  rw [checkAssign_eq, checkAssign_eq, ty_bare]
  split
  · exact .pure rfl
  · exact .reported (by rfl) rfl

theorem ofPlace_bare (line : Line) (place : Option Place) : (ofPlace line place).bare = ofPlace 0 place := by
  cases place <;> rfl

end Typed.Expr

namespace Source.Expr

theorem isEffect_bare (ρ : String → String) (e : Expr) : (e.bare ρ).isEffect = e.isEffect := by cases e <;> rfl

theorem intConstant?_bare (ρ : String → String) (e : Expr) : (e.bare ρ).intConstant? = e.intConstant? := by
  cases e with
  | literal line value => cases value <;> rfl
  | unary line op operand =>
    cases op with
    | negate =>
      cases operand with
      | literal line value => cases value <;> rfl
      | _ => rfl
    | not => cases operand <;> rfl
  | _ => rfl

variable {ρ : String → String} {names names' : Names} (alike : names.Alike ρ names')

include alike

theorem resolveName_bare (line : Line) (name : String) :
    Mirrors id (resolveName names line name) (resolveName names' 0 (ρ name)) := by
  unfold resolveName
  rw [alike.lookup?]
  split
  · exact .pure rfl
  · exact .reported (by rfl) rfl

theorem resolveField_bare (line : Line) (name : String) :
    Mirrors id (resolveField names line name) (resolveField names' 0 (ρ name)) := by
  unfold resolveField
  rw [alike.field?]
  split
  · exact .pure rfl
  · exact .reported (by rfl) rfl

theorem resolvePlace_bare (role : String) (operand : Expr) {checked checked' : Reporting Typed.Expr}
    [checked.Steady] [checked'.Steady] (inside : Mirrors Typed.Expr.bare checked checked') :
    Mirrors id (resolvePlace names role operand checked) (resolvePlace names' role (operand.bare ρ) checked') := by
  cases operand with
  | var line name => exact resolveName_bare alike line name
  | field line name => exact resolveField_bare alike line name
  | literal | unary | step | binary | assign => exact inside.bind fun _ => .reported (by rfl) rfl

/-- The check of an expression is mirrored by that of the bare one. -/
theorem check_bare (e : Expr) : Mirrors Typed.Expr.bare (e.check names) ((e.bare ρ).check names') := by
  induction e with
  | literal line value => exact .pure rfl
  | var line name =>
    exact (resolveName_bare alike line name).bind fun place => .pure (Typed.Expr.ofPlace_bare line place).symm
  | field line name =>
    exact (resolveField_bare alike line name).bind fun place => .pure (Typed.Expr.ofPlace_bare line place).symm
  | unary line op operand ih =>
    cases op with
    | negate => exact ih.bind fun e => e.checkNegate_bare line
    | not => exact ih.bind fun e => e.checkNot_bare line
  | step line op operand ih =>
    refine (resolvePlace_bare alike ("Operand to " ++ op.symbol) operand ih).bind fun place => ?_
    cases place with
    | none => exact .pure rfl
    | some place => exact Typed.Expr.checkStep_bare line op place
  | binary line op lhs rhs ihl ihr =>
    exact ihl.bind fun lhs => ihr.bind fun rhs => Typed.Expr.checkBinary_bare line op lhs rhs
  | assign line target value iht ihv =>
    refine (resolvePlace_bare alike "Assignment target" target iht).bind fun place => ihv.bind fun value => ?_
    cases place with
    | none => exact .pure rfl
    | some place => exact Typed.Expr.checkAssign_bare line place value

end Source.Expr

/-! ## Statements -/

/-- States of the check with names that are alike, and constructs numbered alike. -/
structure CheckState.Alike (ρ : String → String) (st st' : CheckState) : Prop where
  names : st.names.Alike ρ st'.names
  nextTarget : st'.nextTarget = st.nextTarget

namespace Check

/-- A check of statements that mirrors another one, from states that are alike to such states. -/
def Mirrors {α β : Type} (ρ : String → String) (f : α → β) (x : Check α) (y : Check β) : Prop :=
  ∀ (st st' : CheckState), st.Alike ρ st' → ∀ (a : α) (ds : List Diagnostic) (st₁ : CheckState),
    Gives x st a ds st₁ → ∃ ds' st₁', Gives y st' (f a) ds' st₁' ∧ kinds ds' = kinds ds ∧ st₁.Alike ρ st₁'

namespace Mirrors

variable {ρ : String → String} {α β γ δ : Type} {f : α → β} {g : γ → δ} {x : Check α} {y : Check β}

theorem pure {a : α} {b : β} (h : b = f a) : Mirrors ρ f (pure a) (pure b) := by
  intro st st' alike a ds st₁ given
  obtain ⟨rfl, rfl, rfl⟩ := gives_pure.1 given
  exact ⟨[], st', gives_pure.2 ⟨h.symm, rfl, rfl⟩, rfl, alike⟩

theorem bind {next : α → Check γ} {next' : β → Check δ} [x.Steady] [y.Steady] [∀ a, (next a).Steady]
    [∀ b, (next' b).Steady] (h : Mirrors ρ f x y)
    (h' : ∀ a, Mirrors ρ g (next a) (next' (f a))) : Mirrors ρ g (x >>= next) (y >>= next') := by
  intro st st' alike c ds st₂ given
  obtain ⟨a, ds₁, st₁, ds₂, first, second, rfl⟩ := gives_bind.1 given
  obtain ⟨ds₁', st₁', first', kinds₁, alike⟩ := h _ _ alike _ _ _ first
  obtain ⟨ds₂', st₂', second', kinds₂, alike⟩ := h' a _ _ alike _ _ _ second
  exact ⟨ds₁' ++ ds₂', st₂', gives_bind.2 ⟨_, _, _, _, first', second', rfl⟩,
    by rw [kinds_append, kinds_append, kinds₁, kinds₂], alike⟩

theorem lift {x : Reporting α} {y : Reporting β} [x.Steady] [y.Steady] (h : Reporting.Mirrors f x y) :
    Mirrors ρ f (StateT.lift x) (StateT.lift y) := by
  intro st st' alike a ds st₁ given
  obtain ⟨⟨rfl, rfl⟩, rfl⟩ := gives_lift.1 given
  exact ⟨y.reports, st', gives_lift.2 ⟨⟨h.value, rfl⟩, rfl⟩, h.kinds, alike⟩

theorem inScope [x.Steady] [y.Steady] (h : Mirrors ρ f x y) : Mirrors ρ f (inScope x) (inScope y) := by
  intro st st' alike a ds st₁ given
  obtain ⟨st₂, inside, rfl⟩ := gives_inScope.1 given
  have opened : st.opened.Alike ρ st'.opened := ⟨alike.names.openScope, alike.nextTarget⟩
  obtain ⟨ds', st₂', inside', same, alike⟩ := h _ _ opened _ _ _ inside
  exact ⟨ds', st₂'.closed, gives_inScope.2 ⟨st₂', inside', rfl⟩, same, alike.names.closeScope, alike.nextTarget⟩

theorem freshTarget : Mirrors ρ id freshTarget freshTarget := by
  intro st st' alike target ds st₁ given
  obtain ⟨rfl, rfl, rfl⟩ := gives_freshTarget.1 given
  exact ⟨[], st'.numbered, gives_freshTarget.2 ⟨alike.nextTarget.symm, rfl, rfl⟩, rfl, alike.names,
    congrArg (· + 1) alike.nextTarget⟩

theorem reportUnless {holds : Bool} {d d' : Diagnostic} (h : d'.kind = d.kind) :
    Mirrors ρ id (reportUnless holds d) (reportUnless holds d') := lift (.reportUnless h)

theorem expr (e : Source.Expr) : Mirrors ρ Typed.Expr.bare (expr e) (expr (e.bare ρ)) := by
  intro st st' alike t ds st₁ given
  obtain ⟨checked, rfl⟩ := gives_expr.1 given
  have mirrors := e.check_bare alike.names
  obtain ⟨rfl, rfl⟩ := checked
  exact ⟨_, st', gives_expr.2 ⟨⟨mirrors.value, rfl⟩, rfl⟩, mirrors.kinds, alike⟩

/-- The check of an expression and of one condition on its type. -/
theorem expected (e : Source.Expr) (holds : Ty → Bool) {d : Typed.Expr → Diagnostic}
    (same : ∀ t, (d t.bare).kind = (d t).kind) :
    Mirrors ρ Typed.Expr.bare (do let t ← Check.expr e; Check.reportUnless (holds t.ty) (d t); return t)
      (do let t ← Check.expr (e.bare ρ); Check.reportUnless (holds t.ty) (d t); return t) := by
  refine (expr e).bind fun t => ?_
  rw [Typed.Expr.ty_bare]
  exact (reportUnless (same t)).bind fun _ => pure rfl

theorem condition (construct : String) (e : Source.Expr) :
    Mirrors ρ Typed.Expr.bare (condition construct e) (condition construct (e.bare ρ)) :=
  expected e (·.agrees .boolean) fun _ => rfl

theorem initializer (ty : Ty) (e : Source.Expr) :
    Mirrors ρ Typed.Expr.bare (initializer ty e) (initializer ty (e.bare ρ)) := by
  rw [initializer_eq, initializer_eq]
  exact expected e (·.agrees ty) fun _ => rfl

theorem optional {check : Source.Expr → Check Typed.Expr} [∀ e, (check e).Steady]
    (h : ∀ e, Mirrors ρ Typed.Expr.bare (check e) (check (e.bare ρ))) (e : Option Source.Expr) :
    Mirrors ρ (Option.map Typed.Expr.bare) (optional check e) (optional check (e.map (Source.Expr.bare ρ))) := by
  cases e with
  | none => exact pure rfl
  | some e => exact (h e).bind fun _ => pure rfl

theorem declare (injective : Function.Injective ρ) (line : Line) (name : String) (ty : Ty)
    (init : Option Source.Expr) :
    Mirrors ρ Typed.Stmt.bare (declare line name ty init)
      (declare 0 (ρ name) ty (init.map (Source.Expr.bare ρ))) := by
  refine (optional (initializer ty) init).bind fun init => ?_
  intro st st' alike t ds st₁ given
  obtain ⟨s, ds₁, st₂, ds₂, got, rest, rfl⟩ := gives_bind.1 given
  obtain ⟨rfl, rfl, rfl⟩ := gives_get.1 got
  rcases alike.names.declare? injective name ty with ⟨taken', taken⟩ | ⟨var, after, after', free', free, names⟩
  · rw [taken] at rest
    obtain ⟨_, told, rfl⟩ := gives_bind_pure.1 rest
    obtain ⟨rfl, rfl⟩ := gives_report.1 told
    refine ⟨[.repeatedLocal 0 (ρ name)], st', gives_bind.2 ⟨st', [], st', _, gives_get.2 ⟨rfl, rfl, rfl⟩, ?_, rfl⟩,
      rfl, alike⟩
    rw [taken']
    exact gives_bind_pure.2 ⟨(), gives_report.2 ⟨rfl, rfl⟩, rfl⟩
  · rw [free] at rest
    obtain ⟨_, changed, rfl⟩ := gives_bind_pure.1 rest
    obtain ⟨rfl, rfl⟩ := gives_modify.1 changed
    refine ⟨[], { st' with names := after' }, gives_bind.2 ⟨st', [], st', _, gives_get.2 ⟨rfl, rfl, rfl⟩, ?_, rfl⟩,
      rfl, names, alike.nextTarget⟩
    rw [free']
    exact gives_bind_pure.2 ⟨(), gives_modify.2 ⟨rfl, rfl⟩, rfl⟩

theorem result (line : Line) (returns : Option Ty) (value : Option Typed.Expr) :
    Mirrors ρ id (result line returns value) (result 0 returns (value.map Typed.Expr.bare)) := by
  cases returns with
  | none =>
    cases value with
    | none => exact pure rfl
    | some value => exact lift (.report rfl)
  | some expected =>
    cases value with
    | none => exact lift (.report rfl)
    | some value =>
      change Mirrors ρ id _
        (Check.reportUnless (value.bare.ty.agrees expected) (.badReturn 0 value.bare.ty expected))
      rw [Typed.Expr.ty_bare]
      exact reportUnless rfl

end Mirrors

end Check

namespace Source

theorem CaseLabel.checkAll_bare (ρ : String → String) (line line' : Line) (seen : LabelsSeen)
    (labels : List CaseLabel) :
    Mirrors id (checkAll line seen labels) (checkAll line' seen (labels.map (bare ρ))) := by
  induction labels generalizing seen with
  | nil => exact .pure rfl
  | cons label rest ih =>
    cases label with
    | case e =>
      change Mirrors id _ (checkAll line' seen (.case (e.bare ρ) :: rest.map (bare ρ)))
      rw [checkAll, checkAll, e.intConstant?_bare]
      split
      · exact .bind (.reportUnless (by rfl)) fun _ => .bind (ih _) fun _ => .pure rfl
      · exact .bind (.report (by rfl)) fun _ => ih seen
    | otherwise => exact .bind (.reportUnless (by rfl)) fun _ => .bind (ih _) fun _ => .pure rfl

namespace Stmt

variable {ρ : String → String}

mutual

/-- The check of a statement is mirrored by that of the bare one. -/
theorem check_bare (injective : Function.Injective ρ) (env : Surroundings) (s : Stmt) :
    Check.Mirrors ρ Typed.Stmt.bare (s.check env) ((s.bare ρ).check env) := by
  match s with
  | .block line body => exact .bind (checkAll_bare injective env body).inScope fun _ => .pure rfl
  | .declare line name ty init => exact .declare injective line name ty init
  | .expr line e =>
    rw [bare, check, check, e.isEffect_bare]
    exact .bind (.reportUnless rfl) fun _ => .bind (.expr e) fun _ => .pure rfl
  | .ifElse line c t none =>
    exact .bind (.condition "if" c) fun _ => .bind (check_bare injective env t).inScope fun _ => .pure rfl
  | .ifElse line c t (some e) =>
    exact .bind (.condition "if" c) fun _ => .bind (check_bare injective env t).inScope fun _ =>
      .bind (check_bare injective env e).inScope fun _ => .pure rfl
  | .whileDo line c body =>
    exact .bind (.condition "while" c) fun _ => .bind .freshTarget fun _ =>
      .bind (check_bare injective _ body).inScope fun _ => .pure rfl
  | .doWhile line body c =>
    exact .bind .freshTarget fun _ => .bind (check_bare injective _ body).inScope fun _ =>
      .bind (.condition "do" c) fun _ => .pure rfl
  | .forLoop line init c update none =>
    exact .inScope (.bind (checkAll_bare injective env init) fun _ =>
      .bind (.optional (.condition "for") c) fun _ => .bind .freshTarget fun _ =>
        .bind (checkAll_bare injective _ update) fun _ => .pure rfl)
  | .forLoop line init c update (some body) =>
    exact .inScope (.bind (checkAll_bare injective env init) fun _ =>
      .bind (.optional (.condition "for") c) fun _ => .bind .freshTarget fun _ =>
        .bind (checkAll_bare injective _ update) fun _ =>
          .bind (check_bare injective _ body).inScope fun _ => .pure rfl)
  | .switch line d groups =>
    refine .bind (.expr d) fun d => ?_
    rw [Typed.Expr.ty_bare]
    exact .bind (.reportUnless rfl) fun _ => .bind .freshTarget fun _ =>
      .bind (checkGroups_bare injective _ line 0 .none groups) fun _ => .pure rfl
  | .breakOut line | .continueLoop line => exact .bind (.reportUnless rfl) fun _ => .pure rfl
  | .ret line value =>
    exact .bind (.optional .expr value) fun _ => .bind (.result line env.returns _) fun _ => .pure rfl
  | .empty line => exact .pure rfl

theorem checkAll_bare (injective : Function.Injective ρ) (env : Surroundings) (ss : List Stmt) :
    Check.Mirrors ρ Typed.Stmt.allBare (checkAll env ss) (checkAll env (allBare ρ ss)) := by
  match ss with
  | [] => exact .pure rfl
  | s :: rest =>
    exact .bind (check_bare injective env s) fun _ => .bind (checkAll_bare injective env rest) fun _ => .pure rfl

theorem checkGroups_bare (injective : Function.Injective ρ) (env : Surroundings) (line line' : Line)
    (seen : LabelsSeen) (groups : List (SwitchGroup CaseLabel Stmt)) :
    Check.Mirrors ρ Typed.Stmt.groupsBare (checkGroups env line seen groups)
      (checkGroups env line' seen (groupsBare ρ groups)) := by
  match groups with
  | [] => exact .pure rfl
  | ⟨labels, stmts⟩ :: rest =>
    exact .bind (.lift (CaseLabel.checkAll_bare ρ line line' seen labels)) fun _ =>
      .bind (checkAll_bare injective env stmts) fun _ =>
        .bind (checkGroups_bare injective env line line' _ rest) fun _ => .pure rfl

end

end Stmt

namespace Program

variable {ρ : String → String} (injective : Function.Injective ρ)

include injective

theorem enterFields_bare {names names' : Names} (alike : names.Alike ρ names') (index : Nat)
    (fields : List FieldDecl) :
    (enterFields names index fields).value.Alike ρ
      (enterFields names' index (fields.map fun field => ⟨ρ field.name, field.ty⟩)).value ∧
    kinds (enterFields names' index (fields.map fun field => ⟨ρ field.name, field.ty⟩)).reports =
      kinds (enterFields names index fields).reports := by
  induction fields generalizing names names' index with
  | nil => exact ⟨alike, rfl⟩
  | cons field rest ih =>
    rw [List.map_cons]
    rcases alike.addField? injective (UInt16.ofNat (min index 65535)) field with
      ⟨taken', taken⟩ | ⟨after, after', free', free, alike⟩
    · rw [value_enterFields_taken taken, value_enterFields_taken taken', reports_enterFields_taken taken,
        reports_enterFields_taken taken']
      obtain ⟨alike, same⟩ := ih alike (index + 1)
      exact ⟨alike, congrArg (Mistake.redeclared :: ·) same⟩
    · rw [enterFields, enterFields, free', free]
      exact ih alike (index + 1)

/-- The check of a program is mirrored by that of the bare one. -/
theorem check_bare (p : Program) :
    kinds (p.bare ρ).check.reports = kinds p.check.reports ∧
    (p.bare ρ).check.value.maxLocals = p.check.value.maxLocals ∧
    (p.bare ρ).check.value.body = Typed.Stmt.allBare p.check.value.body := by
  obtain ⟨alike, entered⟩ := enterFields_bare injective .empty 0 p.fields
  have start : CheckState.Alike ρ ⟨(enterFields .empty 0 p.fields).value, 0⟩
      ⟨(enterFields .empty 0 (p.bare ρ).fields).value, 0⟩ := ⟨alike, rfl⟩
  obtain ⟨ds', st', given, same, after⟩ :=
    Stmt.checkAll_bare injective ⟨p.returns, []⟩ p.body _ _ start _ _ _ (Reporting.gives_self _)
  rw [reports_check, reports_check, kinds_append, kinds_append, ← same, value_check, value_check]
  refine ⟨?_, ?_, ?_⟩
  · exact congrArg₂ (· ++ ·) entered (congrArg kinds given.reports)
  · exact (congrArg (·.2.names.nextSlot) given.value).trans after.names.nextSlot
  · exact congrArg (·.1) given.value

end Program

end Source

end Stacklet
