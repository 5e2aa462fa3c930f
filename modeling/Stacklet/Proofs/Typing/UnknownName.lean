import Stacklet.Proofs.Typing.Limit
import Stacklet.Proofs.Typing.Scopes
import Stacklet.Proofs.Typing.Storage
import Stacklet.Proofs.Typing.UnknownOperand

/-!
# One mistake, one report

An unknown name in the place of any part of an accepted program is reported once, and nothing else is. The part is
given by what is around it: operators, and a place in a statement (`Stmt.Hole`) that is a place in the body of a
program (`Program.Hole`). A statement with the unknown name leaves the same state behind as the one without it
(`Stmt.Mars`), and the name stays unknown up to it, so that all else is checked as before.
-/

namespace Stacklet

namespace Check

open Source

variable {st : CheckState} {ds : List Diagnostic} {name : String} {e : Expr} {layers : List Expr.Layer}

theorem reads_expr_fill (unknown : st.names.lookup? name = none) (line : Line) {t : Typed.Expr}
    (read : Reads (expr (e.fill layers)) st t ds) (silent : ds = []) :
    ∃ t', Reads (expr (.fill (.var line name) layers)) st t' [.unknownName line name] ∧ t'.Blurs t := by
  rw [reads_expr] at read
  have reports : ((e.fill layers).check st.names).reports = [] := by rw [read.reports, silent]
  have marred := Expr.check_fill unknown line reports
  refine ⟨((Expr.fill (.var line name) layers).check st.names).value, ?_, ?_⟩
  · rw [reads_expr, ← marred.reports]
    exact Reporting.gives_self _
  · rw [← read.value]
    exact marred.blurs

/-- Where an expression of some type is expected. -/
theorem reads_expected_fill (unknown : st.names.lookup? name = none) (line : Line) {ty : Ty}
    {d : Typed.Expr → Diagnostic} {t : Typed.Expr}
    (read : Reads (do let t ← expr (e.fill layers); reportUnless (t.ty.agrees ty) (d t); return t) st t ds)
    (silent : ds = []) :
    ∃ t', Reads (do let t ← expr (.fill (.var line name) layers); reportUnless (t.ty.agrees ty) (d t); return t) st
      t' [.unknownName line name] := by
  obtain ⟨⟨ds₁, checked, both⟩, -⟩ := gives_expected.1 read
  rw [silent, eq_comm, List.append_eq_nil_iff] at both
  obtain ⟨t', read', blurs⟩ := reads_expr_fill unknown line (reads_expr.2 checked) both.1
  refine ⟨t', gives_expected.2 ⟨⟨_, reads_expr.1 read', ?_⟩, rfl⟩⟩
  rw [reports_reportUnless_eq_nil_iff.2 (blurs.agrees (reports_reportUnless_eq_nil_iff.1 both.2)), List.append_nil]

theorem reads_initializer_fill (unknown : st.names.lookup? name = none) (line : Line) {ty : Ty} {t : Typed.Expr}
    (read : Reads (initializer ty (e.fill layers)) st t ds) (silent : ds = []) :
    ∃ t', Reads (initializer ty (.fill (.var line name) layers)) st t' [.unknownName line name] := by
  rw [initializer_eq] at read ⊢
  exact reads_expected_fill unknown line read silent

theorem reads_optional_some {check : Expr → Check Typed.Expr} [∀ e, (check e).Steady] {t : Option Typed.Expr} :
    Reads (optional check (some e)) st t ds ↔ ∃ t', Reads (check e) st t' ds ∧ t = some t' :=
  gives_bind_pure

theorem reads_result_blurs {line : Line} {returns : Option Ty} {t' t : Typed.Expr} (blurs : t'.Blurs t)
    (read : Reads (result line returns (some t)) st () ds) (silent : ds = []) :
    Reads (result line returns (some t')) st () [] := by
  cases returns with
  | none =>
    rw [(gives_report.1 read).1] at silent
    cases silent
  | some ty =>
    have reports := (gives_reportUnless.1 read).1
    rw [silent, eq_comm, reports_reportUnless_eq_nil_iff] at reports
    exact gives_reportUnless.2 ⟨(reports_reportUnless_eq_nil_iff.2 (blurs.agrees reports)).symm, rfl⟩

end Check

/-! ## Statements -/

namespace Source.Stmt

theorem allLocals_append (ss ss' : List Stmt) : allLocals (ss ++ ss') = allLocals ss ++ allLocals ss' := by
  induction ss with
  | nil => rfl
  | cons s ss ih => rw [List.cons_append, allLocals, ih, allLocals, List.append_assoc]

theorem groupLocals_append (gs gs' : List (SwitchGroup CaseLabel Stmt)) :
    groupLocals (gs ++ gs') = groupLocals gs ++ groupLocals gs' := by
  induction gs with
  | nil => rfl
  | cons g gs ih => rw [List.cons_append, groupLocals, ih, groupLocals, List.append_assoc]

variable {name : String}

theorem not_mem_locals_thenPart {line : Line} {c : Expr} {s : Stmt} {other : Option Stmt}
    (h : name ∉ (ifElse line c s other).locals.map (·.1)) : name ∉ s.locals.map (·.1) := by
  cases other with
  | none => exact h
  | some _ =>
    rw [locals, List.map_append, List.mem_append, not_or] at h
    exact h.1

theorem not_mem_locals_forLoop {line : Line} {init update : List Stmt} {c : Option Expr} {body : Option Stmt}
    (h : name ∉ (forLoop line init c update body).locals.map (·.1)) :
    name ∉ (allLocals init).map (·.1) ∧ name ∉ (allLocals update).map (·.1) := by
  cases body with
  | none =>
    rw [locals, List.map_append, List.mem_append, not_or] at h
    exact h
  | some _ =>
    simp only [locals, List.map_append, List.mem_append, not_or] at h
    exact ⟨h.1, h.2.1⟩

end Source.Stmt

namespace Checks

open Source

variable {env : Surroundings} {st st' : CheckState} {ds : List Diagnostic}

/-- An expression that is there for its effect. -/
theorem effect {line : Line} {e : Expr} {t : Typed.Expr} (read : Check.Reads (Check.expr e) st t ds)
    (effect : e.isEffect = true) : Checks env (.stmt (.expr line e) (.expr line t)) st ds st := by
  have checks : Checks env (.stmt (.expr line e) (.expr line t)) st _ st := .expr read
  rwa [reports_reportUnless_eq_nil_iff.2 effect] at checks

/-- A switch on an int. -/
theorem discriminated {line : Line} {d : Expr} {d' : Typed.Expr} {ds' : List Diagnostic}
    {gs : List (SwitchGroup CaseLabel Stmt)} {gs' : List (SwitchGroup Typed.CaseLabel Typed.Stmt)}
    (read : Check.Reads (Check.expr d) st d' ds) (fits : d'.ty.agrees .int = true)
    (groups : Checks (env.enter .switch st.nextTarget) (.groups line .none gs gs') st.numbered ds' st') :
    Checks env (.stmt (.switch line d gs) (.switch line st.nextTarget d' gs')) st (ds ++ ds') st' := by
  have checks : Checks env (.stmt (.switch line d gs) (.switch line st.nextTarget d' gs')) st _ st' :=
    .switch read groups
  rwa [reports_reportUnless_eq_nil_iff.2 fits] at checks

/-! An `if` may have an `else` and a `for` may have a body, which is checked last. Whatever is put in the place of
the other parts, it is checked as before. -/

theorem ifElse_parts {line : Line} {c : Expr} {s : Stmt} {other : Option Stmt} {t : Typed.Stmt}
    (h : Checks env (.stmt (.ifElse line c s other) t) st ds st') (silent : ds = []) :
    ∃ c' s' st₁, Check.Reads (Check.condition "if" c) st c' [] ∧ Checks env (.stmt s s') st.opened [] st₁ ∧
      ∀ {c₂ c₂' s₂ s₂' ds₁ ds₂}, Check.Reads (Check.condition "if" c₂) st c₂' ds₁ →
        Checks env (.stmt s₂ s₂') st.opened ds₂ st₁ →
        ∃ t', Checks env (.stmt (.ifElse line c₂ s₂ other) t') st (ds₁ ++ ds₂) st' := by
  cases h with
  | ifThen cond part =>
    obtain ⟨rfl, rfl⟩ := List.append_eq_nil_iff.1 silent
    exact ⟨_, _, _, cond, part, fun cond part => ⟨_, .ifThen cond part⟩⟩
  | ifElse cond part last =>
    simp only [List.append_eq_nil_iff] at silent
    obtain ⟨rfl, rfl, rfl⟩ := silent
    refine ⟨_, _, _, cond, part, fun {_ _ _ _ ds₁ ds₂} cond part => ?_⟩
    rw [← List.append_nil ds₂]
    exact ⟨_, .ifElse cond part last⟩

theorem forLoop_parts {line : Line} {init update : List Stmt} {c : Option Expr} {body : Option Stmt}
    {t : Typed.Stmt} (h : Checks env (.stmt (.forLoop line init c update body) t) st ds st') (silent : ds = []) :
    ∃ init' c' update' st₁ st₂, Checks env (.all init init') st.opened [] st₁ ∧
      Check.Reads (Check.optional (Check.condition "for") c) st₁ c' [] ∧
      Checks (env.enter .loop st₁.nextTarget) (.all update update') st₁.numbered [] st₂ ∧
      ∀ {init₂ init₂' c₂ c₂' update₂ update₂' ds₁ ds₂ ds₃}, Checks env (.all init₂ init₂') st.opened ds₁ st₁ →
        Check.Reads (Check.optional (Check.condition "for") c₂) st₁ c₂' ds₂ →
        Checks (env.enter .loop st₁.nextTarget) (.all update₂ update₂') st₁.numbered ds₃ st₂ →
        ∃ t', Checks env (.stmt (.forLoop line init₂ c₂ update₂ body) t') st (ds₁ ++ (ds₂ ++ ds₃)) st' := by
  cases h with
  | forEmpty init cond update =>
    simp only [List.append_eq_nil_iff] at silent
    obtain ⟨rfl, rfl, rfl⟩ := silent
    exact ⟨_, _, _, _, _, init, cond, update, fun init cond update => ⟨_, .forEmpty init cond update⟩⟩
  | forLoop init cond update last =>
    simp only [List.append_eq_nil_iff] at silent
    obtain ⟨rfl, rfl, rfl, rfl⟩ := silent
    refine ⟨_, _, _, _, _, init, cond, update, fun {_ _ _ _ _ _ _ _ ds₃} init cond update => ?_⟩
    rw [← List.append_nil ds₃]
    exact ⟨_, .forLoop init cond update last⟩

end Checks

/-- A statement that may stand where another one is checked without a report and a name is unknown: there is one
report, and all else goes on as before. -/
def Source.Stmt.Mars (name : String) (d : Diagnostic) (s' s : Stmt) : Prop :=
  ∀ ⦃env t st ds st'⦄, Checks env (.stmt s t) st ds st' → ds = [] → st.names.lookup? name = none →
    ∃ t', Checks env (.stmt s' t') st [d] st'

namespace Source.Stmt.Mars

variable {name : String} {d : Diagnostic} {s' s : Stmt} {env : Surroundings} {st st' : CheckState}
  {ds : List Diagnostic} {before after : List Stmt}

/-- A statement among others. -/
theorem all (h : s'.Mars name d s) (undeclared : name ∉ (allLocals before).map (·.1)) {ts : List Typed.Stmt}
    (checks : Checks env (.all (before ++ s :: after) ts) st ds st') (silent : ds = [])
    (unknown : st.names.lookup? name = none) :
    ∃ ts', Checks env (.all (before ++ s' :: after) ts') st [d] st' := by
  induction before generalizing st ds ts with
  | nil =>
    cases checks with
    | cons first rest =>
      obtain ⟨rfl, rfl⟩ := List.append_eq_nil_iff.1 silent
      obtain ⟨t', marred⟩ := h first rfl unknown
      exact ⟨_, .cons marred rest⟩
  | cons s₀ before ih =>
    cases checks with
    | cons first rest =>
      obtain ⟨rfl, rfl⟩ := List.append_eq_nil_iff.1 silent
      rw [allLocals, List.map_append, List.mem_append, not_or] at undeclared
      obtain ⟨ts', marred⟩ := ih undeclared.2 rest rfl ((first.lookup?_eq undeclared.1).trans unknown)
      exact ⟨_, .cons first marred⟩

/-- A statement in a group of a switch. -/
theorem groups (h : s'.Mars name d s) {groupsBefore groupsAfter : List (SwitchGroup CaseLabel Stmt)}
    {labels : List CaseLabel} (apart : name ∉ (groupLocals groupsBefore).map (·.1))
    (undeclared : name ∉ (allLocals before).map (·.1))
    {line : Line} {seen : LabelsSeen} {gs : List (SwitchGroup Typed.CaseLabel Typed.Stmt)}
    (checks : Checks env (.groups line seen (groupsBefore ++ ⟨labels, before ++ s :: after⟩ :: groupsAfter) gs)
      st ds st') (silent : ds = [])
    (unknown : st.names.lookup? name = none) :
    ∃ gs', Checks env (.groups line seen (groupsBefore ++ ⟨labels, before ++ s' :: after⟩ :: groupsAfter) gs')
      st [d] st' := by
  induction groupsBefore generalizing st ds gs seen with
  | nil =>
    cases checks with
    | group checked stmts rest =>
      obtain ⟨rfl, rfl, rfl⟩ : _ ∧ _ ∧ _ := by simpa only [List.append_eq_nil_iff] using silent
      obtain ⟨ts', marred⟩ := h.all undeclared stmts rfl unknown
      exact ⟨_, .group checked marred rest⟩
  | cons g groupsBefore ih =>
    cases checks with
    | group checked stmts rest =>
      obtain ⟨rfl, rfl, rfl⟩ : _ ∧ _ ∧ _ := by simpa only [List.append_eq_nil_iff] using silent
      rw [groupLocals, List.map_append, List.mem_append, not_or] at apart
      obtain ⟨gs', marred⟩ := ih apart.2 rest rfl ((stmts.lookup?_eq apart.1).trans unknown)
      exact ⟨_, .group checked stmts marred⟩

end Source.Stmt.Mars

namespace Source.Stmt

/-- A place for an expression in a statement, with all that is around it. It is not the whole of an expression
statement, and it is in no case label. -/
inductive Hole where
  | block (line : Line) (before : List Stmt) (inner : Hole) (after : List Stmt)
  | initializer (line : Line) (name : String) (ty : Ty) (layers : List Expr.Layer)
  | operand (line : Line) (layer : Expr.Layer) (layers : List Expr.Layer)
  | ifCondition (line : Line) (layers : List Expr.Layer) (thenPart : Stmt) (elsePart : Option Stmt)
  | thenPart (line : Line) (condition : Expr) (inner : Hole) (elsePart : Option Stmt)
  | elsePart (line : Line) (condition : Expr) (thenPart : Stmt) (inner : Hole)
  | whileCondition (line : Line) (layers : List Expr.Layer) (body : Stmt)
  | whileBody (line : Line) (condition : Expr) (inner : Hole)
  | doBody (line : Line) (inner : Hole) (condition : Expr)
  | doCondition (line : Line) (body : Stmt) (layers : List Expr.Layer)
  | forInit (line : Line) (before : List Stmt) (inner : Hole) (after : List Stmt) (condition : Option Expr)
      (update : List Stmt) (body : Option Stmt)
  | forCondition (line : Line) (init : List Stmt) (layers : List Expr.Layer) (update : List Stmt)
      (body : Option Stmt)
  | forUpdate (line : Line) (init : List Stmt) (condition : Option Expr) (before : List Stmt) (inner : Hole)
      (after : List Stmt) (body : Option Stmt)
  | forBody (line : Line) (init : List Stmt) (condition : Option Expr) (update : List Stmt) (inner : Hole)
  | discriminant (line : Line) (layers : List Expr.Layer) (groups : List (SwitchGroup CaseLabel Stmt))
  | group (line : Line) (discriminant : Expr) (groupsBefore : List (SwitchGroup CaseLabel Stmt))
      (labels : List CaseLabel) (before : List Stmt) (inner : Hole) (after : List Stmt)
      (groupsAfter : List (SwitchGroup CaseLabel Stmt))
  | result (line : Line) (layers : List Expr.Layer)

/-- The statement with an expression in the place that is left open. -/
def Hole.fill (e : Expr) : Hole → Stmt
  | .block line before inner after => .block line (before ++ inner.fill e :: after)
  | .initializer line name ty layers => .declare line name ty (some (e.fill layers))
  | .operand line layer layers => .expr line (e.fill (layer :: layers))
  | .ifCondition line layers t other => .ifElse line (e.fill layers) t other
  | .thenPart line c inner other => .ifElse line c (inner.fill e) other
  | .elsePart line c t inner => .ifElse line c t (some (inner.fill e))
  | .whileCondition line layers body => .whileDo line (e.fill layers) body
  | .whileBody line c inner => .whileDo line c (inner.fill e)
  | .doBody line inner c => .doWhile line (inner.fill e) c
  | .doCondition line body layers => .doWhile line body (e.fill layers)
  | .forInit line before inner after c update body => .forLoop line (before ++ inner.fill e :: after) c update body
  | .forCondition line init layers update body => .forLoop line init (some (e.fill layers)) update body
  | .forUpdate line init c before inner after body => .forLoop line init c (before ++ inner.fill e :: after) body
  | .forBody line init c update inner => .forLoop line init c update (some (inner.fill e))
  | .discriminant line layers groups => .switch line (e.fill layers) groups
  | .group line d groupsBefore labels before inner after groupsAfter =>
    .switch line d (groupsBefore ++ ⟨labels, before ++ inner.fill e :: after⟩ :: groupsAfter)
  | .result line layers => .ret line (some (e.fill layers))

end Source.Stmt

namespace Source.Stmt.Hole

variable {name : String} {e : Expr}

/-- An unknown name in the place of any part of a statement without mistakes. -/
theorem fill_mars (hole : Hole) (line : Line) (undeclared : name ∉ (hole.fill e).locals.map (·.1)) :
    (hole.fill (.var line name)).Mars name (.unknownName line name) (hole.fill e) := by
  -- Each case takes the check apart by its rule and puts it together again with the part that is marred. The name
  -- is still unknown there, since nothing in front of it declares it.
  induction hole with
  | block _ before inner after ih =>
    intro env t st ds st' h silent unknown
    simp only [fill, locals, allLocals_append, allLocals, List.map_append, List.mem_append, not_or] at undeclared
    rw [← Names.lookup?_openScope] at unknown
    cases h with
    | block body =>
      obtain ⟨ts', marred⟩ := (ih undeclared.2.1).all undeclared.1 body silent unknown
      exact ⟨_, .block marred⟩
  | initializer _ _ ty layers =>
    intro env t st ds st' h silent unknown
    cases h with
    | declare read free =>
      obtain ⟨t, value, rfl⟩ := Check.reads_optional_some.1 read
      obtain ⟨t', marred⟩ := Check.reads_initializer_fill unknown line value silent
      exact ⟨_, .declare (Check.reads_optional_some.2 ⟨t', marred, rfl⟩) free⟩
    | redeclare => exact absurd silent (List.append_ne_nil_of_right_ne_nil _ (List.cons_ne_nil _ _))
  | operand _ layer layers =>
    intro env t st ds st' h silent unknown
    cases h with
    | expr read =>
      rw [List.append_eq_nil_iff, reports_reportUnless_eq_nil_iff, Expr.isEffect_fill _ (.var line name)] at silent
      obtain ⟨t', marred, -⟩ := Check.reads_expr_fill unknown line read silent.2
      exact ⟨_, .effect marred silent.1⟩
  | ifCondition _ layers s other =>
    intro env t st ds st' h silent unknown
    obtain ⟨_, _, _, cond, part, replaced⟩ := h.ifElse_parts silent
    obtain ⟨c', marred⟩ := Check.reads_expected_fill unknown line cond rfl
    exact replaced marred part
  | thenPart _ c inner other ih =>
    intro env t st ds st' h silent unknown
    rw [← Names.lookup?_openScope] at unknown
    obtain ⟨_, _, _, cond, part, replaced⟩ := h.ifElse_parts silent
    obtain ⟨t', marred⟩ := ih (not_mem_locals_thenPart undeclared) part rfl unknown
    exact replaced cond marred
  | elsePart _ c s inner ih =>
    intro env t st ds st' h silent unknown
    simp only [fill, locals, List.map_append, List.mem_append, not_or] at undeclared
    cases h with
    | ifElse cond part other =>
      simp only [List.append_eq_nil_iff] at silent
      obtain ⟨rfl, rfl, rfl⟩ := silent
      rw [← part.lookup?_closed, ← Names.lookup?_openScope] at unknown
      obtain ⟨t', marred⟩ := ih undeclared.2 other rfl unknown
      exact ⟨_, .ifElse cond part marred⟩
  | whileCondition _ layers body =>
    intro env t st ds st' h silent unknown
    cases h with
    | whileDo cond body =>
      obtain ⟨rfl, rfl⟩ := List.append_eq_nil_iff.1 silent
      obtain ⟨c', marred⟩ := Check.reads_expected_fill unknown line cond rfl
      exact ⟨_, .whileDo marred body⟩
  | whileBody _ c inner ih =>
    intro env t st ds st' h silent unknown
    rw [← Names.lookup?_openScope] at unknown
    cases h with
    | whileDo cond body =>
      obtain ⟨rfl, rfl⟩ := List.append_eq_nil_iff.1 silent
      obtain ⟨t', marred⟩ := ih undeclared body rfl unknown
      exact ⟨_, .whileDo cond marred⟩
  | doBody _ inner c ih =>
    intro env t st ds st' h silent unknown
    rw [← Names.lookup?_openScope] at unknown
    cases h with
    | doWhile body cond =>
      obtain ⟨rfl, rfl⟩ := List.append_eq_nil_iff.1 silent
      obtain ⟨t', marred⟩ := ih undeclared body rfl unknown
      exact ⟨_, .doWhile marred cond⟩
  | doCondition _ body layers =>
    intro env t st ds st' h silent unknown
    cases h with
    | doWhile body cond =>
      obtain ⟨rfl, rfl⟩ := List.append_eq_nil_iff.1 silent
      have closed := (body.lookup?_closed name).trans unknown
      obtain ⟨c', marred⟩ := Check.reads_expected_fill closed line cond rfl
      exact ⟨_, .doWhile body marred⟩
  | forInit _ before inner after c update body ih =>
    intro env t st ds st' h silent unknown
    rw [← Names.lookup?_openScope] at unknown
    have own := (not_mem_locals_forLoop undeclared).1
    simp only [allLocals_append, allLocals, List.map_append, List.mem_append, not_or] at own
    obtain ⟨_, _, _, _, _, start, cond, steps, replaced⟩ := h.forLoop_parts silent
    obtain ⟨ts', marred⟩ := (ih own.2.1).all own.1 start rfl unknown
    exact replaced marred cond steps
  | forCondition _ init layers update body =>
    intro env t st ds st' h silent unknown
    rw [← Names.lookup?_openScope] at unknown
    obtain ⟨_, _, _, _, _, start, cond, steps, replaced⟩ := h.forLoop_parts silent
    obtain ⟨c, value, rfl⟩ := Check.reads_optional_some.1 cond
    have entered := (start.lookup?_eq (not_mem_locals_forLoop undeclared).1).trans unknown
    obtain ⟨c', marred⟩ := Check.reads_expected_fill entered line value rfl
    exact replaced start (Check.reads_optional_some.2 ⟨c', marred, rfl⟩) steps
  | forUpdate _ init c before inner after body ih =>
    intro env t st ds st' h silent unknown
    rw [← Names.lookup?_openScope] at unknown
    obtain ⟨apart, own⟩ := not_mem_locals_forLoop undeclared
    simp only [allLocals_append, allLocals, List.map_append, List.mem_append, not_or] at own
    obtain ⟨_, _, _, _, _, start, cond, steps, replaced⟩ := h.forLoop_parts silent
    have entered := (start.lookup?_eq apart).trans unknown
    obtain ⟨ts', marred⟩ := (ih own.2.1).all own.1 steps rfl entered
    exact replaced start cond marred
  | forBody _ init c update inner ih =>
    intro env t st ds st' h silent unknown
    rw [← Names.lookup?_openScope] at unknown
    simp only [fill, locals, List.map_append, List.mem_append, not_or] at undeclared
    cases h with
    | forLoop start cond steps body =>
      simp only [List.append_eq_nil_iff] at silent
      obtain ⟨rfl, rfl, rfl, rfl⟩ := silent
      have entered := (start.lookup?_eq undeclared.1).trans unknown
      have updated := (steps.lookup?_eq undeclared.2.1).trans entered
      rw [← Names.lookup?_openScope] at updated
      obtain ⟨t', marred⟩ := ih undeclared.2.2 body rfl updated
      exact ⟨_, .forLoop start cond steps marred⟩
  | discriminant _ layers groups =>
    intro env t st ds st' h silent unknown
    cases h with
    | switch read checked =>
      simp only [List.append_eq_nil_iff, reports_reportUnless_eq_nil_iff] at silent
      obtain ⟨rfl, fits, rfl⟩ := silent
      obtain ⟨d', marred, blurs⟩ := Check.reads_expr_fill unknown line read rfl
      exact ⟨_, .discriminated marred (blurs.agrees fits) checked⟩
  | group _ d groupsBefore labels before inner after groupsAfter ih =>
    intro env t st ds st' h silent unknown
    simp only [fill, locals, groupLocals_append, groupLocals, allLocals_append, allLocals, List.map_append,
      List.mem_append, not_or] at undeclared
    cases h with
    | switch read checked =>
      simp only [List.append_eq_nil_iff, reports_reportUnless_eq_nil_iff] at silent
      obtain ⟨rfl, fits, rfl⟩ := silent
      obtain ⟨gs', marred⟩ := (ih undeclared.2.1.2.1).groups undeclared.1 undeclared.2.1.1 checked rfl unknown
      exact ⟨_, .discriminated read fits marred⟩
  | result _ layers =>
    intro env t st ds st' h silent unknown
    cases h with
    | ret read given =>
      obtain ⟨rfl, rfl⟩ := List.append_eq_nil_iff.1 silent
      obtain ⟨t, value, rfl⟩ := Check.reads_optional_some.1 read
      obtain ⟨t', marred, blurs⟩ := Check.reads_expr_fill unknown line value rfl
      exact ⟨_, .ret (Check.reads_optional_some.2 ⟨t', marred, rfl⟩) (Check.reads_result_blurs blurs given rfl)⟩

end Source.Stmt.Hole

/-! ## Programs -/

namespace Source.Program

/-- A place for an expression in a program, with all that is around it. -/
structure Hole where
  name : String
  fields : List FieldDecl
  returns : Option Ty
  before : List Stmt
  inner : Stmt.Hole
  after : List Stmt

/-- The program with an expression in the place that is left open. -/
def Hole.fill (e : Expr) (hole : Hole) : Program where
  name := hole.name
  fields := hole.fields
  returns := hole.returns
  body := hole.before ++ hole.inner.fill e :: hole.after

/-- Where a program starts, only the names of its fields are known. -/
theorem lookup?_start {p : Program} {name : String} (undeclared : name ∉ p.fields.map (·.name)) :
    (enterFields .empty 0 p.fields).value.lookup? name = none := by
  have stands : (enterFields .empty 0 p.fields).value.StandFor fun name _ => name ∈ p.fields.map (·.name) :=
    standFor_start fun _ _ found => List.mem_map_of_mem (List.mem_of_getElem? found)
  cases found : (enterFields .empty 0 p.fields).value.lookup? name with
  | none => rfl
  | some place => exact absurd (stands.lookup found) undeclared

/-- An unknown name in the place of any part of a program without mistakes. -/
theorem reports_fill {hole : Hole} {e : Expr} (silent : (hole.fill e).check.reports = []) {name : String}
    (noField : name ∉ (hole.fill e).fields.map (·.name)) (noLocal : name ∉ (hole.fill e).localNames) (line : Line) :
    (hole.fill (.var line name)).check.reports = [.unknownName line name] := by
  simp only [localNames, locals, Hole.fill, Stmt.allLocals_append, Stmt.allLocals, List.map_append, List.mem_append,
    not_or] at noLocal
  obtain ⟨ds, st, checks, reports, -⟩ := (hole.fill e).check_checks
  rw [silent, List.nil_eq_append_iff] at reports
  obtain ⟨ts', marred⟩ :=
    (hole.inner.fill_mars line noLocal.2.1).all noLocal.1 checks reports.2 (lookup?_start noField)
  exact (reports_of_checks marred).trans (congrArg (· ++ _) reports.1)

/-- One mistake is reported once. Where an expression occurs in an accepted program, a name that the program does
not declare is reported as unknown, and nothing else is. -/
theorem unknown_reported_once (p : Program) (limit : Option Nat) (accepted : (p.analyze limit).isOk)
    (hole : Hole) (e : Expr) (occurs : hole.fill e = p) (line : Line) (name : String)
    (noField : name ∉ p.fields.map (·.name)) (noLocal : name ∉ p.localNames) :
    let mistaken := hole.fill (.var line name)
    (mistaken.analyze none).diagnostics.recorded.toList = [.unknownName line name] ∧
    (Diagnostic.unknownName line name).kind = .undefinedName ∧
    ∀ limit', (mistaken.analyze limit').diagnostics.total = 1 := by
  intro mistaken
  subst occurs
  have reports : mistaken.check.reports = [.unknownName line name] :=
    reports_fill (isOk_analyze_iff.1 accepted) noField noLocal line
  refine ⟨?_, rfl, fun limit' => ?_⟩
  · rw [analyze_eq, Diagnostics.recorded_ofReports_none, reports]
  · rw [analyze_eq, (Diagnostics.keeps_ofReports limit' _).total, reports]
    rfl

end Source.Program

/-- The place of the name that is assigned in a switch of the program above. -/
def shadowedTarget : Source.Program.Hole where
  name := shadowed.name
  fields := shadowed.fields
  returns := shadowed.returns
  before := shadowed.body.take 2
  inner :=
    .group 4 (.var 4 "x") [⟨[.case (.literal 5 (.int 1)), .otherwise], [.declare 5 "y" .long none]⟩]
      [.case (.unary 6 .negate (.literal 6 (.int 1)))] []
      (.operand 6 (.assignee 6 (.literal 6 (.long 0))) []) [.breakOut 6] []
  after := shadowed.body.drop 3

theorem shadowed_reported_once :
    shadowedTarget.fill (.var 6 "y") = shadowed ∧ (shadowed.analyze none).isOk = true ∧
      ((shadowedTarget.fill (.var 6 "w")).analyze none).diagnostics.recorded.toList = [.unknownName 6 "w"] := by
  have accepted : (shadowed.analyze none).isOk = true := by decide +kernel
  have once := shadowed.unknown_reported_once none accepted shadowedTarget (.var 6 "y") rfl 6 "w" (by decide)
    (by decide)
  exact ⟨rfl, accepted, once.1⟩

end Stacklet
