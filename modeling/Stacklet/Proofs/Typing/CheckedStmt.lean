import Stacklet.Proofs.Typing.CheckedExpr
import Stacklet.Proofs.Typing.Gives

/-!
# Statements that pass the check

A statement that is checked without a report is well formed over the places that its names stand for,
those of the locals that it declares included (`check_accepts`). These are the locals of the source in
order, and they take slots one after the other.
-/

namespace Stacklet

/-! ## Locals that are declared -/

namespace Source.Stmt

mutual

/-- The locals that a statement declares, each with its name and type, in the order in which they are
checked: the update of a `for` comes before its body. -/
def locals : Stmt → List (String × Ty)
  | .block _ body => allLocals body
  | .declare _ name ty _ => [(name, ty)]
  | .ifElse _ _ t none => t.locals
  | .ifElse _ _ t (some e) => t.locals ++ e.locals
  | .whileDo _ _ body | .doWhile _ body _ => body.locals
  | .forLoop _ init _ update none => allLocals init ++ allLocals update
  | .forLoop _ init _ update (some body) => allLocals init ++ (allLocals update ++ body.locals)
  | .switch _ _ groups => groupLocals groups
  | .expr .. | .breakOut _ | .continueLoop _ | .ret .. | .empty _ => []

/-- The locals that statements declare. -/
def allLocals : List Stmt → List (String × Ty)
  | [] => []
  | s :: rest => s.locals ++ allLocals rest

/-- The locals that the groups of a switch declare. -/
def groupLocals : List (SwitchGroup CaseLabel Stmt) → List (String × Ty)
  | [] => []
  | ⟨_, stmts⟩ :: rest => allLocals stmts ++ groupLocals rest

end

end Source.Stmt

namespace Typed.Stmt

mutual

/-- The locals that a statement declares, in the order in which they are checked. -/
def locals : Stmt → List LocalVar
  | .block _ body => allLocals body
  | .declare _ var _ => [var]
  | .ifElse _ _ t none => t.locals
  | .ifElse _ _ t (some e) => t.locals ++ e.locals
  | .whileDo _ _ _ body | .doWhile _ _ body _ => body.locals
  | .forLoop _ _ init _ update none => allLocals init ++ allLocals update
  | .forLoop _ _ init _ update (some body) => allLocals init ++ (allLocals update ++ body.locals)
  | .switch _ _ _ groups => groupLocals groups
  | .expr .. | .breakOut .. | .continueLoop .. | .ret .. | .empty _ => []

/-- The locals that statements declare. -/
def allLocals : List Stmt → List LocalVar
  | [] => []
  | s :: rest => s.locals ++ allLocals rest

/-- The locals that the groups of a switch declare. -/
def groupLocals : List (SwitchGroup CaseLabel Stmt) → List LocalVar
  | [] => []
  | ⟨_, stmts⟩ :: rest => allLocals stmts ++ groupLocals rest

end

end Typed.Stmt

/-- Locals that take slots one after the other, with the slots before and after them. -/
def Numbered (next : UInt16) : List LocalVar → UInt16 → Prop
  | [], next' => next' = next
  | var :: vars, next' => var.slot = next ∧ Numbered (Names.slotAfter next) vars next'

theorem Numbered.append {next₁ next₂ next₃ : UInt16} {vars vars' : List LocalVar}
    (h : Numbered next₁ vars next₂) (h' : Numbered next₂ vars' next₃) :
    Numbered next₁ (vars ++ vars') next₃ := by
  induction vars generalizing next₁ with
  | nil => cases h; exact h'
  | cons var vars ih => exact ⟨h.1, ih h.2⟩

/-! ## Checks without a report -/

namespace Check

/-- A check that reports nothing and gives a result and a state. -/
def Silent {α : Type} (x : Check α) (st : CheckState) (a : α) (st' : CheckState) : Prop := Gives x st a [] st'

variable {α β : Type} {st st' : CheckState}

/-- Checks in sequence report nothing when neither of them does. -/
theorem silent_bind {x : Check α} {f : α → Check β} [x.Steady] [∀ a, (f a).Steady] {b : β} :
    Silent (x >>= f) st b st' ↔ ∃ a st₁, Silent x st a st₁ ∧ Silent (f a) st₁ b st' := by
  rw [Silent, gives_bind]
  constructor
  · rintro ⟨a, ds₁, st₁, ds₂, hx, hf, nothing⟩
    obtain ⟨rfl, rfl⟩ := List.nil_eq_append_iff.1 nothing
    exact ⟨a, st₁, hx, hf⟩
  · rintro ⟨a, st₁, hx, hf⟩
    exact ⟨a, [], st₁, [], hx, hf, rfl⟩

theorem silent_pure {a b : α} : Silent (pure a) st b st' ↔ b = a ∧ st' = st := by
  simp only [Silent, gives_pure, true_and]

theorem silent_lift {x : Reporting α} [x.Steady] {a : α} :
    Silent (StateT.lift x) st a st' ↔ x.Gives a [] ∧ st' = st := gives_lift

theorem silent_get {s : CheckState} : Silent get st s st' ↔ s = st ∧ st' = st := silent_pure

theorem silent_modify {g : CheckState → CheckState} {u : Unit} :
    Silent (modify g) st u st' ↔ st' = g st := by
  simp only [Silent, gives_modify, true_and]

theorem silent_reportUnless {holds : Bool} {d : Diagnostic} {u : Unit} :
    Silent (reportUnless holds d) st u st' ↔ holds = true ∧ st' = st := by
  rw [Silent, gives_reportUnless, eq_comm, reports_reportUnless_eq_nil_iff]

theorem not_silent_report {d : Diagnostic} {u : Unit} : ¬ Silent (report d) st u st' := by
  rw [Silent, gives_report]
  rintro ⟨h, -⟩
  cases h

theorem silent_expr {e : Source.Expr} {t : Typed.Expr} :
    Silent (expr e) st t st' ↔ (e.check st.names).Gives t [] ∧ st' = st := gives_expr

theorem silent_condition {construct : String} {e : Source.Expr} {t : Typed.Expr}
    (h : Silent (condition construct e) st t st') :
    ((e.check st.names).Gives t [] ∧ t.ty.agrees .boolean) ∧ st' = st := by
  unfold condition at h
  simp only [silent_bind, silent_expr, silent_reportUnless, silent_pure] at h
  obtain ⟨t, _, ⟨he, rfl⟩, _, _, ⟨agrees, rfl⟩, rfl, rfl⟩ := h
  exact ⟨⟨he, agrees⟩, rfl⟩

theorem silent_initializer {ty : Ty} {e : Source.Expr} {t : Typed.Expr}
    (h : Silent (initializer ty e) st t st') :
    ((e.check st.names).Gives t [] ∧ t.ty.agrees ty) ∧ st' = st := by
  rw [initializer_eq] at h
  simp only [silent_bind, silent_expr, silent_reportUnless, silent_pure] at h
  obtain ⟨t, _, ⟨he, rfl⟩, _, _, ⟨agrees, rfl⟩, rfl, rfl⟩ := h
  exact ⟨⟨he, agrees⟩, rfl⟩

theorem silent_optional {check : Source.Expr → Check Typed.Expr} [∀ e, (check e).Steady] {e : Option Source.Expr}
    {t : Option Typed.Expr} (h : Silent (optional check e) st t st') :
    e = none ∧ t = none ∧ st' = st ∨
      ∃ e' t', e = some e' ∧ t = some t' ∧ Silent (check e') st t' st' := by
  cases e with
  | none =>
    obtain ⟨rfl, rfl⟩ := silent_pure.1 h
    exact .inl ⟨rfl, rfl, rfl⟩
  | some e =>
    obtain ⟨t', _, ht, hp⟩ := silent_bind.1 h
    obtain ⟨rfl, rfl⟩ := silent_pure.1 hp
    exact .inr ⟨e, t', rfl, rfl, ht⟩

theorem silent_inScope {x : Check α} [x.Steady] {a : α} (h : Silent (inScope x) st a st') :
    ∃ st₁, Silent x { st with names := st.names.openScope } a st₁ ∧
      st' = { st₁ with names := st₁.names.closeScope } := gives_inScope.1 h

theorem silent_freshTarget {t : Target} :
    Silent freshTarget st t st' ↔ t = st.nextTarget ∧ st' = { st with nextTarget := st.nextTarget + 1 } := by
  simp only [Silent, gives_freshTarget, true_and]
  rfl

section

variable {known : Place → Prop} {names : Names} {e : Source.Expr} {t : Typed.Expr} {ty : Ty}

/-- The result of a check without a report is well typed. -/
theorem wellTyped_of_silent (proper : ∀ p, known p → p.ty ≠ .any) (hn : names.Known known)
    (h : (e.check names).Gives t []) : t.WellTyped known := by
  have typed := Source.Expr.check_wellTyped proper hn h.reports
  rwa [h.value] at typed

/-- A result that agrees with a proper type has that type. -/
theorem ty_of_silent (proper : ∀ p, known p → p.ty ≠ .any) (hn : names.Known known)
    (h : (e.check names).Gives t []) (agrees : t.ty.agrees ty) (hty : ty ≠ .any) : t.ty = ty :=
  Typed.Expr.eq_of_agrees agrees ((wellTyped_of_silent proper hn h).ne_any proper) hty

end

/-- What follows when a check reports nothing: the locals declared by its result have the types that the
source gives them and take the next slots, constructs are numbered upwards, and over known places,
those of the locals included, some fact holds of the result and all names stand for known places. -/
structure Accepts (env : Surroundings) (st st' : CheckState) (declared : List (String × Ty)) (vars : List LocalVar)
    (fact : (Place → Prop) → Prop) : Prop where
  types : vars.map (·.ty) = declared.map (·.2)
  slots : Numbered st.names.nextSlot vars st'.names.nextSlot
  targets : st.nextTarget ≤ st'.nextTarget
  places : ∀ known, (∀ p, known p → p.ty ≠ .any) → (∀ var ∈ vars, known (.ofLocal var)) →
    st.names.Known known → (∀ e ∈ env.jumps, e.target < st.nextTarget) →
    fact known ∧ st'.names.Known known

namespace Accepts

variable {env : Surroundings} {st₁ : CheckState} {declared declared' : List (String × Ty)}
  {vars vars' : List LocalVar}
  {fact fact' : (Place → Prop) → Prop}

/-- A check that declares nothing. -/
theorem still (h : ∀ known, (∀ p, known p → p.ty ≠ .any) → st.names.Known known → fact known) :
    Accepts env st st [] [] fact :=
  ⟨rfl, rfl, Nat.le_refl _, fun known proper _ hn _ => ⟨h known proper hn, hn⟩⟩

theorem ofExpr {e : Source.Expr} {t : Typed.Expr} (h : (e.check st.names).Gives t []) :
    Accepts env st st [] [] t.WellTyped := by
  apply still
  intro known proper hn
  exact wellTyped_of_silent proper hn h

theorem ofTyped {e : Source.Expr} {t : Typed.Expr} {ty : Ty} (h : (e.check st.names).Gives t [])
    (agrees : t.ty.agrees ty) (hty : ty ≠ .any) :
    Accepts env st st [] [] fun known => t.WellTyped known ∧ t.ty = ty := by
  apply still
  intro known proper hn
  exact ⟨wellTyped_of_silent proper hn h, ty_of_silent proper hn h agrees hty⟩

theorem ofCondition {e : Source.Expr} {t : Typed.Expr}
    (h : (e.check st.names).Gives t [] ∧ t.ty.agrees .boolean) :
    Accepts env st st [] [] t.IsCondition :=
  ofTyped h.1 h.2 nofun

theorem imp (h : Accepts env st st' declared vars fact) (himp : ∀ known, fact known → fact' known) :
    Accepts env st st' declared vars fact' where
  types := h.types
  slots := h.slots
  targets := h.targets
  places known proper hv hn hj :=
    have ⟨hf, hn'⟩ := h.places known proper hv hn hj
    ⟨himp known hf, hn'⟩

/-- One check after another. -/
theorem seq (h : Accepts env st st₁ declared vars fact) (h' : Accepts env st₁ st' declared' vars' fact') :
    Accepts env st st' (declared ++ declared') (vars ++ vars') fun known => fact known ∧ fact' known where
  types := by rw [List.map_append, List.map_append, h.types, h'.types]
  slots := h.slots.append h'.slots
  targets := Nat.le_trans h.targets h'.targets
  places known proper hv hn hj := by
    obtain ⟨hf, hn₁⟩ := h.places known proper (fun var hm => hv var (List.mem_append_left _ hm)) hn hj
    obtain ⟨hf', hn'⟩ := h'.places known proper (fun var hm => hv var (List.mem_append_right _ hm)) hn₁
      (fun e he => Nat.lt_of_lt_of_le (hj e he) h.targets)
    exact ⟨⟨hf, hf'⟩, hn'⟩

/-- A check in a scope of its own. -/
theorem inScope (h : Accepts env { st with names := st.names.openScope } st₁ declared vars fact) :
    Accepts env st { st₁ with names := st₁.names.closeScope } declared vars fact where
  types := h.types
  slots := by
    have same : st₁.names.closeScope.nextSlot = st₁.names.nextSlot := by
      unfold Names.closeScope
      split <;> rfl
    exact same ▸ h.slots
  targets := h.targets
  places known proper hv hn hj :=
    have ⟨hf, hn'⟩ := h.places known proper hv hn.openScope hj
    ⟨hf, hn'.closeScope⟩

/-- A check inside a new construct. -/
theorem entered {construct : Construct}
    (h : Accepts (env.enter construct st.nextTarget) { st with nextTarget := st.nextTarget + 1 } st' declared
      vars fact) :
    Accepts env st st' declared vars fun known => Typed.IsFresh env st.nextTarget ∧ fact known where
  types := h.types
  slots := h.slots
  targets := Nat.le_trans (Nat.le_succ _) h.targets
  places known proper hv hn hj := by
    have inner : ∀ e ∈ (env.enter construct st.nextTarget).jumps, e.target < st.nextTarget + 1 := by
      intro e he
      rcases List.mem_cons.1 he with rfl | he
      · exact Nat.lt_succ_self _
      · exact Nat.lt_succ_of_lt (hj e he)
    obtain ⟨hf, hn'⟩ := h.places known proper hv hn inner
    exact ⟨⟨fun e he => Nat.ne_of_lt (hj e he), hf⟩, hn'⟩

end Accepts

/-- A declaration without a report checks its value and declares its local. -/
theorem silent_declare {line : Line} {name : String} {ty : Ty} {init : Option Source.Expr} {t : Typed.Stmt}
    (h : Silent (declare line name ty init) st t st') :
    ∃ init' var names, Silent (optional (initializer ty) init) st init' st ∧
      st.names.declare? name ty = some (var, names) ∧ t = .declare line var init' ∧
      st' = { st with names := names } := by
  obtain ⟨init', st₁, hi, bound⟩ := silent_bind.1 h
  have same : st₁ = st := by
    rcases silent_optional hi with ⟨-, -, same⟩ | ⟨e, e', -, -, he⟩
    · exact same
    · exact (silent_initializer he).2
  subst same
  obtain ⟨s, st₂, hg, rest⟩ := silent_bind.1 bound
  obtain ⟨hs, hs₂⟩ := silent_get.1 hg
  rw [hs, hs₂] at rest
  cases hd : st₁.names.declare? name ty with
  | none =>
    rw [hd] at rest
    obtain ⟨_, _, hr, -⟩ := silent_bind.1 rest
    exact (not_silent_report hr).elim
  | some result =>
    obtain ⟨var, names⟩ := result
    rw [hd] at rest
    simp only [enter, silent_bind, silent_modify, silent_pure] at rest
    obtain ⟨_, _, rfl, rfl, rfl⟩ := rest
    exact ⟨init', var, names, hi, rfl, rfl, rfl⟩

/-- A declaration that is accepted. -/
theorem accepts_declare {env : Surroundings} {line : Line} {name : String} {ty : Ty}
    {init : Option Source.Expr} {t : Typed.Stmt} (h : Silent (declare line name ty init) st t st') :
    Accepts env st st' [(name, ty)] t.locals fun known => t.WellFormed known env := by
  obtain ⟨init', var, names, hi, hd, rfl, rfl⟩ := silent_declare h
  obtain ⟨rfl, rfl⟩ := Names.declare?_eq_some hd
  refine ⟨rfl, ⟨rfl, rfl⟩, Nat.le_refl _, ?_⟩
  intro known proper hv hn _
  have hk : known (.ofLocal ⟨st.names.nextSlot, ty⟩) := hv _ List.mem_cons_self
  refine ⟨?_, hn.declare hd hk⟩
  rcases silent_optional hi with ⟨-, rfl, -⟩ | ⟨e, t', -, rfl, he⟩
  · exact hk
  · obtain ⟨⟨hc, agrees⟩, -⟩ := silent_initializer he
    exact ⟨hk, wellTyped_of_silent proper hn hc, ty_of_silent proper hn hc agrees (proper _ hk)⟩

/-- The condition of a `for`, if it has one. -/
theorem accepts_conditions {env : Surroundings} {construct : String} {c : Option Source.Expr}
    {c' : Option Typed.Expr} (h : Silent (optional (condition construct) c) st c' st') :
    Accepts env st st' [] [] fun known => ∀ e ∈ c', e.IsCondition known := by
  rcases silent_optional h with ⟨-, rfl, rfl⟩ | ⟨e, t, -, rfl, he⟩
  · exact .still fun _ _ _ _ he => by cases he
  · obtain ⟨tested, rfl⟩ := silent_condition he
    exact (Accepts.ofCondition tested).imp fun _ h e he => by cases he; exact h

/-- A `return` that fits the declared result. -/
theorem accepts_return {env : Surroundings} {st₁ : CheckState} {line line' : Line}
    {value : Option Source.Expr} {value' : Option Typed.Expr} {u : Unit}
    (hv : Silent (optional expr value) st value' st₁)
    (hr : Silent (result line env.returns value') st₁ u st') :
    Accepts env st st' [] [] fun known => (Typed.Stmt.ret line' value').WellFormed known env := by
  rcases silent_optional hv with ⟨-, rfl, rfl⟩ | ⟨e, t, -, rfl, he⟩
  · cases hret : env.returns with
    | none =>
      rw [hret] at hr
      obtain ⟨-, rfl⟩ := silent_pure.1 hr
      exact .still fun _ _ _ => hret
    | some ty =>
      rw [hret] at hr
      exact (not_silent_report hr).elim
  · obtain ⟨typed, rfl⟩ := silent_expr.1 he
    cases hret : env.returns with
    | none =>
      rw [hret] at hr
      exact (not_silent_report hr).elim
    | some ty =>
      rw [hret] at hr
      obtain ⟨agrees, rfl⟩ := silent_reportUnless.1 hr
      refine .still fun known proper hn => ?_
      exact ⟨wellTyped_of_silent proper hn typed, ty, hret, ty_of_silent proper hn typed agrees⟩

end Check

namespace JumpScope

variable {scope : JumpScope}

theorem exists_of_breakTarget (h : scope.breakTarget?.isSome) :
    ∃ e ∈ scope, scope.breakTarget? = some e.target := by
  cases scope with
  | nil => cases h
  | cons e rest => exact ⟨e, List.mem_cons_self, rfl⟩

theorem exists_of_continueTarget (h : scope.continueTarget?.isSome) :
    ∃ e ∈ scope, e.construct = .loop ∧ scope.continueTarget? = some e.target := by
  unfold continueTarget? at h ⊢
  cases found : scope.find? (·.construct == .loop) with
  | none => rw [found] at h; cases h
  | some e =>
    have loop := List.find?_some found
    exact ⟨e, List.mem_of_find?_eq_some found, beq_iff_eq.1 loop, rfl⟩

end JumpScope

/-! ## The labels of a switch -/

/-- Labels checked without a report hold the default at most once, those met before included. -/
theorem Source.CaseLabel.count_checkAll {line : Line} {seen seen' : LabelsSeen}
    {labels : List Source.CaseLabel} {labels' : List Typed.CaseLabel}
    (h : (Source.CaseLabel.checkAll line seen labels).Gives (labels', seen') []) :
    labels'.count .otherwise + seen.hasDefault.toNat = seen'.hasDefault.toNat := by
  induction labels generalizing seen seen' labels' with
  | nil => cases h.value; exact Nat.zero_add _
  | cons label rest ih =>
    cases label with
    | case e =>
      rw [checkAll] at h
      cases hc : e.intConstant? with
      | none =>
        rw [hc] at h
        obtain ⟨_, hr, -⟩ := Reporting.gives_bind_nil.1 h
        cases hr.reports
      | some v =>
        rw [hc] at h
        obtain ⟨_, -, h⟩ := Reporting.gives_bind_nil.1 h
        obtain ⟨⟨rest', seen₁⟩, hrest, h⟩ := Reporting.gives_bind_nil.1 h
        cases h.value
        have same := ih hrest
        rw [List.count_cons_of_ne (by simp)]
        exact same
    | otherwise =>
      rw [checkAll] at h
      obtain ⟨_, hr, h⟩ := Reporting.gives_bind_nil.1 h
      obtain ⟨⟨rest', seen₁⟩, hrest, h⟩ := Reporting.gives_bind_nil.1 h
      cases h.value
      have first := reports_reportUnless_eq_nil_iff.1 hr.reports
      have rest := ih hrest
      rw [Bool.not_eq_true'] at first
      rw [List.count_cons_self, first]
      simp only [Bool.toNat_true, Bool.toNat_false] at rest ⊢
      omega

namespace Source.Stmt

open Check Check.Accepts JumpScope

mutual

/-- A statement checked without a report is well formed. -/
theorem check_accepts (env : Surroundings) (s : Stmt) {st st' : CheckState} {t : Typed.Stmt}
    (h : Silent (s.check env) st t st') :
    Accepts env st st' s.locals t.locals fun known => t.WellFormed known env := by
  match s with
  | .block line body =>
    simp only [check, silent_bind, silent_pure] at h
    obtain ⟨body', _, hb, rfl, rfl⟩ := h
    obtain ⟨st₁, checked, rfl⟩ := silent_inScope hb
    exact (checkAll_accepts env body checked).inScope
  | .declare line name ty init => exact accepts_declare h
  | .expr line e =>
    simp only [check, silent_bind, silent_reportUnless, silent_expr, silent_pure] at h
    obtain ⟨_, _, ⟨-, rfl⟩, e', _, ⟨he, rfl⟩, rfl, rfl⟩ := h
    exact Accepts.ofExpr he
  | .ifElse line c t none =>
    simp only [check, silent_bind, silent_pure] at h
    obtain ⟨c', _, hc, t', _, ht, rfl, rfl⟩ := h
    obtain ⟨tested, rfl⟩ := silent_condition hc
    obtain ⟨st₁, checked, rfl⟩ := silent_inScope ht
    exact (ofCondition tested).seq (check_accepts env t checked).inScope
  | .ifElse line c t (some e) =>
    simp only [check, silent_bind, silent_pure] at h
    obtain ⟨c', _, hc, t', _, ht, e', _, he, rfl, rfl⟩ := h
    obtain ⟨tested, rfl⟩ := silent_condition hc
    obtain ⟨st₁, checked, rfl⟩ := silent_inScope ht
    obtain ⟨st₂, checked', rfl⟩ := silent_inScope he
    exact (ofCondition tested).seq
      ((check_accepts env t checked).inScope.seq (check_accepts env e checked').inScope)
  | .whileDo line c body =>
    simp only [check, silent_bind, silent_pure, silent_freshTarget] at h
    obtain ⟨c', _, hc, _, _, ⟨rfl, rfl⟩, body', _, hb, rfl, rfl⟩ := h
    obtain ⟨tested, rfl⟩ := silent_condition hc
    obtain ⟨st₁, checked, rfl⟩ := silent_inScope hb
    exact (ofCondition tested).seq (check_accepts _ body checked).inScope.entered
  | .doWhile line body c =>
    simp only [check, silent_bind, silent_pure, silent_freshTarget] at h
    obtain ⟨_, _, ⟨rfl, rfl⟩, body', _, hb, c', _, hc, rfl, rfl⟩ := h
    obtain ⟨st₁, checked, rfl⟩ := silent_inScope hb
    obtain ⟨tested, rfl⟩ := silent_condition hc
    have accepted := (check_accepts _ body checked).inScope.entered.seq (ofCondition tested)
    rw [List.append_nil, List.append_nil] at accepted
    exact accepted.imp fun _ ⟨⟨fresh, body⟩, condition⟩ => ⟨condition, fresh, body⟩
  | .forLoop line init c update none =>
    obtain ⟨st₁, checked, rfl⟩ := silent_inScope h
    simp only [silent_bind, silent_pure, silent_freshTarget] at checked
    obtain ⟨init', _, hi, c', _, hc, _, _, ⟨rfl, rfl⟩, update', _, hu, rfl, rfl⟩ := checked
    have accepted := (checkAll_accepts env init hi).seq
      ((accepts_conditions hc).seq (checkAll_accepts _ update hu).entered)
    exact (accepted.imp fun _ ⟨init, condition, fresh, update⟩ =>
      ⟨init, condition, fresh, update, trivial⟩).inScope
  | .forLoop line init c update (some body) =>
    obtain ⟨st₁, checked, rfl⟩ := silent_inScope h
    simp only [silent_bind, silent_pure, silent_freshTarget] at checked
    obtain ⟨init', _, hi, c', _, hc, _, _, ⟨rfl, rfl⟩, update', _, hu, body', _, hb, rfl, rfl⟩ := checked
    obtain ⟨st₂, checked', rfl⟩ := silent_inScope hb
    exact ((checkAll_accepts env init hi).seq ((accepts_conditions hc).seq
      ((checkAll_accepts _ update hu).seq (check_accepts _ body checked').inScope).entered)).inScope
  | .switch line d groups =>
    simp only [check, silent_bind, silent_pure, silent_expr, silent_reportUnless,
      silent_freshTarget] at h
    obtain ⟨d', _, ⟨hd, rfl⟩, _, _, ⟨agrees, rfl⟩, _, _, ⟨rfl, rfl⟩, groups', _, hg, rfl, rfl⟩ := h
    obtain ⟨accepted, once⟩ := checkGroups_accepts _ line .none groups hg
    refine ((ofTyped hd agrees nofun).seq accepted.entered).imp ?_
    rintro known ⟨⟨typed, int⟩, fresh, formed⟩
    exact ⟨typed, int, fresh, once, formed⟩
  | .breakOut line =>
    simp only [check, silent_bind, silent_reportUnless, silent_pure] at h
    obtain ⟨_, _, ⟨found, rfl⟩, rfl, rfl⟩ := h
    exact still fun _ _ _ => exists_of_breakTarget found
  | .continueLoop line =>
    simp only [check, silent_bind, silent_reportUnless, silent_pure] at h
    obtain ⟨_, _, ⟨found, rfl⟩, rfl, rfl⟩ := h
    exact still fun _ _ _ => exists_of_continueTarget found
  | .ret line value =>
    simp only [check, silent_bind, silent_pure] at h
    obtain ⟨value', _, hv, _, _, hr, rfl, rfl⟩ := h
    exact accepts_return hv hr
  | .empty line =>
    obtain ⟨rfl, rfl⟩ := silent_pure.1 h
    exact still fun _ _ _ => trivial

/-- Statements checked without a report are well formed. -/
theorem checkAll_accepts (env : Surroundings) (ss : List Stmt) {st st' : CheckState}
    {ts : List Typed.Stmt} (h : Silent (checkAll env ss) st ts st') :
    Accepts env st st' (allLocals ss) (Typed.Stmt.allLocals ts) fun known =>
      Typed.Stmt.AllWellFormed known env ts := by
  match ss with
  | [] =>
    obtain ⟨rfl, rfl⟩ := silent_pure.1 h
    exact still fun _ _ _ => trivial
  | s :: rest =>
    simp only [checkAll, silent_bind, silent_pure] at h
    obtain ⟨t, _, hs, ts, _, hr, rfl, rfl⟩ := h
    exact (check_accepts env s hs).seq (checkAll_accepts env rest hr)

/-- The groups of a switch checked without a report are well formed, with one default at most. -/
theorem checkGroups_accepts (env : Surroundings) (line : Line) (seen : LabelsSeen)
    (groups : List (SwitchGroup CaseLabel Stmt)) {st st' : CheckState}
    {groups' : List (SwitchGroup Typed.CaseLabel Typed.Stmt)}
    (h : Silent (checkGroups env line seen groups) st groups' st') :
    Accepts env st st' (groupLocals groups) (Typed.Stmt.groupLocals groups') (fun known =>
      Typed.Stmt.GroupsWellFormed known env groups') ∧
    Typed.defaults groups' + seen.hasDefault.toNat ≤ 1 := by
  match groups with
  | [] =>
    obtain ⟨rfl, rfl⟩ := silent_pure.1 h
    exact ⟨still fun _ _ _ => trivial, by cases seen.hasDefault <;> decide⟩
  | ⟨labels, stmts⟩ :: rest =>
    simp only [checkGroups, silent_bind, silent_pure, silent_lift] at h
    obtain ⟨⟨labels', seen'⟩, _, ⟨hl, rfl⟩, stmts', _, hs, rest', _, hr, rfl, rfl⟩ := h
    have counted := CaseLabel.count_checkAll hl
    obtain ⟨accepted, once⟩ := checkGroups_accepts env line seen' rest hr
    refine ⟨(checkAll_accepts env stmts hs).seq accepted, ?_⟩
    rw [Typed.defaults, List.flatMap_cons, List.count_append]
    rw [Typed.defaults] at once
    simp only at once ⊢
    omega

end

end Source.Stmt

end Stacklet
