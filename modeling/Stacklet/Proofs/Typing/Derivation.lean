import Stacklet.Proofs.Typing.Gives

/-!
# The check of statements as rules

`Checks env piece st ds st'` says, by one rule for each form of statement, what the check makes of a piece
of a program from one state to another and what it reports on the way. Whatever the check gives follows the
rules (`check_checks`), with mistakes or without, and whatever follows them is what the check gives
(`Checks.given`); what holds of all checks is proved along them.
-/

namespace Stacklet

/-- A piece of a program, with what the check makes of it. The groups of a switch come with the line of the
switch and the labels met so far. -/
inductive CheckedPiece where
  | stmt (s : Source.Stmt) (t : Typed.Stmt)
  | all (ss : List Source.Stmt) (ts : List Typed.Stmt)
  | groups (line : Line) (seen : LabelsSeen) (gs : List (SwitchGroup Source.CaseLabel Source.Stmt))
      (gs' : List (SwitchGroup Typed.CaseLabel Typed.Stmt))

open Check in
/-- What the check makes of a piece of a program. -/
inductive Checks : Surroundings → CheckedPiece → CheckState → List Diagnostic → CheckState → Prop
  | block {env line body body' st ds st'} : Checks env (.all body body') st.opened ds st' →
    Checks env (.stmt (.block line body) (.block line body')) st ds st'.closed
  | declare {env line name ty init init' var names st ds} : Reads (optional (initializer ty) init) st init' ds →
    st.names.declare? name ty = some (var, names) →
    Checks env (.stmt (.declare line name ty init) (.declare line var init')) st ds { st with names := names }
  | redeclare {env line name ty init init' st ds} : Reads (optional (initializer ty) init) st init' ds →
    st.names.declare? name ty = none →
    Checks env (.stmt (.declare line name ty init) (.empty line)) st (ds ++ [.repeatedLocal line name]) st
  | expr {env line e t st ds} : Reads (expr e) st t ds →
    Checks env (.stmt (.expr line e) (.expr line t)) st
      ((Stacklet.reportUnless e.isEffect (.noEffect line e)).reports ++ ds) st
  | ifThen {env line c c' t t' st ds ds' st'} : Reads (condition "if" c) st c' ds →
    Checks env (.stmt t t') st.opened ds' st' →
    Checks env (.stmt (.ifElse line c t none) (.ifElse line c' t' none)) st (ds ++ ds') st'.closed
  | ifElse {env line c c' t t' e e' st ds ds₁ st₁ ds₂ st₂} : Reads (condition "if" c) st c' ds →
    Checks env (.stmt t t') st.opened ds₁ st₁ → Checks env (.stmt e e') st₁.closed.opened ds₂ st₂ →
    Checks env (.stmt (.ifElse line c t (some e)) (.ifElse line c' t' (some e'))) st
      (ds ++ (ds₁ ++ ds₂)) st₂.closed
  | whileDo {env line c c' body body' st ds ds' st'} : Reads (condition "while" c) st c' ds →
    Checks (env.enter .loop st.nextTarget) (.stmt body body') st.numbered.opened ds' st' →
    Checks env (.stmt (.whileDo line c body) (.whileDo line st.nextTarget c' body')) st (ds ++ ds') st'.closed
  | doWhile {env line c c' body body' st ds st₁ ds'} :
    Checks (env.enter .loop st.nextTarget) (.stmt body body') st.numbered.opened ds st₁ →
    Reads (condition "do" c) st₁.closed c' ds' →
    Checks env (.stmt (.doWhile line body c) (.doWhile line st.nextTarget body' c')) st (ds ++ ds') st₁.closed
  | forEmpty {env line init init' c c' update update' st ds₁ st₁ ds₂ ds₃ st₂} :
    Checks env (.all init init') st.opened ds₁ st₁ → Reads (optional (condition "for") c) st₁ c' ds₂ →
    Checks (env.enter .loop st₁.nextTarget) (.all update update') st₁.numbered ds₃ st₂ →
    Checks env (.stmt (.forLoop line init c update none) (.forLoop line st₁.nextTarget init' c' update' none)) st
      (ds₁ ++ (ds₂ ++ ds₃)) st₂.closed
  | forLoop {env line init init' c c' update update' body body' st ds₁ st₁ ds₂ ds₃ st₂ ds₄ st₃} :
    Checks env (.all init init') st.opened ds₁ st₁ → Reads (optional (condition "for") c) st₁ c' ds₂ →
    Checks (env.enter .loop st₁.nextTarget) (.all update update') st₁.numbered ds₃ st₂ →
    Checks (env.enter .loop st₁.nextTarget) (.stmt body body') st₂.opened ds₄ st₃ →
    Checks env (.stmt (.forLoop line init c update (some body))
      (.forLoop line st₁.nextTarget init' c' update' (some body'))) st
      (ds₁ ++ (ds₂ ++ (ds₃ ++ ds₄))) st₃.closed.closed
  | switch {env line d d' groups groups' st ds ds' st'} : Reads (expr d) st d' ds →
    Checks (env.enter .switch st.nextTarget) (.groups line .none groups groups') st.numbered ds' st' →
    Checks env (.stmt (.switch line d groups) (.switch line st.nextTarget d' groups')) st
      (ds ++ ((Stacklet.reportUnless (d'.ty.agrees .int) (.badDiscriminant line d'.ty)).reports ++ ds')) st'
  | breakOut {env line st} :
    Checks env (.stmt (.breakOut line) (.breakOut line env.jumps.breakTarget?)) st
      (Stacklet.reportUnless env.jumps.breakTarget?.isSome (.strayBreak line)).reports st
  | continueLoop {env line st} :
    Checks env (.stmt (.continueLoop line) (.continueLoop line env.jumps.continueTarget?)) st
      (Stacklet.reportUnless env.jumps.continueTarget?.isSome (.strayContinue line)).reports st
  | ret {env line value value' st ds ds'} : Reads (optional Check.expr value) st value' ds →
    Reads (result line env.returns value') st () ds' →
    Checks env (.stmt (.ret line value) (.ret line value')) st (ds ++ ds') st
  | empty {env line st} : Checks env (.stmt (.empty line) (.empty line)) st [] st
  | nil {env st} : Checks env (.all [] []) st [] st
  | cons {env s t ss ts st ds st₁ ds' st'} : Checks env (.stmt s t) st ds st₁ →
    Checks env (.all ss ts) st₁ ds' st' →
    Checks env (.all (s :: ss) (t :: ts)) st (ds ++ ds') st'
  | noGroups {env line seen st} : Checks env (.groups line seen [] []) st [] st
  | group {env line seen labels labels' seen' stmts stmts' rest rest' st ds₀ ds st₁ ds' st'} :
    (Source.CaseLabel.checkAll line seen labels).Gives (labels', seen') ds₀ →
    Checks env (.all stmts stmts') st ds st₁ → Checks env (.groups line seen' rest rest') st₁ ds' st' →
    Checks env (.groups line seen (⟨labels, stmts⟩ :: rest) (⟨labels', stmts'⟩ :: rest')) st
      (ds₀ ++ (ds ++ ds')) st'

namespace Check

variable {st st' : CheckState} {ds : List Diagnostic}

/-- A declaration either takes a name or reports that it is taken. -/
theorem checks_declare {env : Surroundings} {line : Line} {name : String} {ty : Ty} {init : Option Source.Expr}
    {t : Typed.Stmt} (h : Gives (declare line name ty init) st t ds st') :
    Checks env (.stmt (.declare line name ty init) t) st ds st' := by
  rw [declare] at h
  obtain ⟨init', ds₁, ds₂, read, rest, rfl⟩ :=
    gives_reads_bind h fun init => ((gives_optional fun e => (gives_initializer.1 e).2).1 init).2
  obtain ⟨s, ds₃, st₁, ds₄, got, bound, rfl⟩ := gives_bind.1 rest
  obtain ⟨hs, hds, hst⟩ := gives_get.1 got
  rw [hst, hs] at bound
  rw [hds, List.nil_append]
  cases hd : st.names.declare? name ty with
  | none =>
    rw [hd] at bound
    obtain ⟨_, told, rfl⟩ := gives_bind_pure.1 bound
    obtain ⟨rfl, rfl⟩ := gives_report.1 told
    exact .redeclare read hd
  | some result =>
    obtain ⟨var, names⟩ := result
    rw [hd] at bound
    obtain ⟨_, changed, rfl⟩ := gives_bind_pure.1 bound
    obtain ⟨rfl, rfl⟩ := gives_modify.1 changed
    rw [List.append_nil]
    exact .declare read hd

end Check

namespace Source.Stmt

open Check

mutual

/-- The check of a statement follows the rules. -/
theorem check_checks (env : Surroundings) (s : Stmt) {t : Typed.Stmt} {st st' : CheckState} {ds : List Diagnostic}
    (h : Gives (s.check env) st t ds st') : Checks env (.stmt s t) st ds st' := by
  match s with
  | .block line body =>
    rw [check, gives_bind_pure] at h
    obtain ⟨body', inside, rfl⟩ := h
    obtain ⟨st₁, hb, rfl⟩ := gives_inScope.1 inside
    exact .block (checkAll_checks env body hb)
  | .declare line name ty init => exact checks_declare h
  | .expr line e =>
    rw [check, gives_reportUnless_bind] at h
    obtain ⟨ds, rest, rfl⟩ := h
    obtain ⟨e', checked, rfl⟩ := gives_bind_pure.1 rest
    obtain ⟨he, rfl⟩ := gives_expr.1 checked
    exact .expr (reads_expr.2 he)
  | .ifElse line c t none =>
    rw [check] at h
    obtain ⟨c', ds, ds', hc, rest, rfl⟩ := gives_reads_bind h fun c => (gives_condition.1 c).2
    obtain ⟨t', inside, rfl⟩ := gives_bind_pure.1 rest
    obtain ⟨st₁, ht, rfl⟩ := gives_inScope.1 inside
    exact .ifThen hc (check_checks env t ht)
  | .ifElse line c t (some e) =>
    rw [check] at h
    obtain ⟨c', ds, ds', hc, rest, rfl⟩ := gives_reads_bind h fun c => (gives_condition.1 c).2
    obtain ⟨t', ds₁, _, ds₂, inside, rest', rfl⟩ := gives_bind.1 rest
    obtain ⟨st₁, ht, rfl⟩ := gives_inScope.1 inside
    obtain ⟨e', inside', rfl⟩ := gives_bind_pure.1 rest'
    obtain ⟨st₂, he, rfl⟩ := gives_inScope.1 inside'
    exact .ifElse hc (check_checks env t ht) (check_checks env e he)
  | .whileDo line c body =>
    rw [check] at h
    obtain ⟨c', ds, ds', hc, rest, rfl⟩ := gives_reads_bind h fun c => (gives_condition.1 c).2
    obtain ⟨body', inside, rfl⟩ := gives_bind_pure.1 (gives_freshTarget_bind.1 rest)
    obtain ⟨st₁, hb, rfl⟩ := gives_inScope.1 inside
    exact .whileDo hc (check_checks _ body hb)
  | .doWhile line body c =>
    rw [check, gives_freshTarget_bind] at h
    obtain ⟨body', ds, _, ds', inside, rest, rfl⟩ := gives_bind.1 h
    obtain ⟨st₁, hb, rfl⟩ := gives_inScope.1 inside
    obtain ⟨c', tested, rfl⟩ := gives_bind_pure.1 rest
    obtain ⟨hc, rfl⟩ := gives_condition.1 tested
    exact .doWhile (check_checks _ body hb) hc
  | .forLoop line init c update none =>
    rw [check, gives_inScope] at h
    obtain ⟨st₁, inside, rfl⟩ := h
    obtain ⟨init', ds₁, st₂, ds, hi, rest, rfl⟩ := gives_bind.1 inside
    obtain ⟨c', ds₂, ds₃, hc, rest', rfl⟩ :=
      gives_reads_bind rest fun c => ((gives_optional fun e => (gives_condition.1 e).2).1 c).2
    obtain ⟨update', hu, rfl⟩ := gives_bind_pure.1 (gives_freshTarget_bind.1 rest')
    exact .forEmpty (checkAll_checks env init hi) hc (checkAll_checks _ update hu)
  | .forLoop line init c update (some body) =>
    rw [check, gives_inScope] at h
    obtain ⟨st₁, inside, rfl⟩ := h
    obtain ⟨init', ds₁, st₂, ds, hi, rest, rfl⟩ := gives_bind.1 inside
    obtain ⟨c', ds₂, ds', hc, rest', rfl⟩ :=
      gives_reads_bind rest fun c => ((gives_optional fun e => (gives_condition.1 e).2).1 c).2
    obtain ⟨update', ds₃, st₃, ds₄, hu, last, rfl⟩ := gives_bind.1 (gives_freshTarget_bind.1 rest')
    obtain ⟨body', inside', rfl⟩ := gives_bind_pure.1 last
    obtain ⟨st₄, hb, rfl⟩ := gives_inScope.1 inside'
    exact .forLoop (checkAll_checks env init hi) hc (checkAll_checks _ update hu) (check_checks _ body hb)
  | .switch line d groups =>
    rw [check] at h
    obtain ⟨d', ds, _, hd, rest, rfl⟩ := gives_reads_bind h fun e => (gives_expr.1 e).2
    obtain ⟨ds', rest', rfl⟩ := gives_reportUnless_bind.1 rest
    obtain ⟨groups', hg, rfl⟩ := gives_bind_pure.1 (gives_freshTarget_bind.1 rest')
    exact .switch hd (checkGroups_checks _ line .none groups hg)
  | .breakOut line =>
    rw [check] at h
    obtain ⟨_, told, rfl⟩ := gives_bind_pure.1 h
    obtain ⟨rfl, rfl⟩ := gives_reportUnless.1 told
    exact .breakOut
  | .continueLoop line =>
    rw [check] at h
    obtain ⟨_, told, rfl⟩ := gives_bind_pure.1 h
    obtain ⟨rfl, rfl⟩ := gives_reportUnless.1 told
    exact .continueLoop
  | .ret line value =>
    rw [check] at h
    obtain ⟨value', ds, ds', hv, rest, rfl⟩ :=
      gives_reads_bind h fun v => ((gives_optional fun e => (gives_expr.1 e).2).1 v).2
    obtain ⟨_, given, rfl⟩ := gives_bind_pure.1 rest
    obtain ⟨hr, rfl⟩ := gives_result.1 given
    exact .ret hv hr
  | .empty line =>
    rw [check, gives_pure] at h
    obtain ⟨rfl, rfl, rfl⟩ := h
    exact .empty

/-- The check of statements in order follows the rules. -/
theorem checkAll_checks (env : Surroundings) (ss : List Stmt) {ts : List Typed.Stmt} {st st' : CheckState}
    {ds : List Diagnostic} (h : Gives (checkAll env ss) st ts ds st') : Checks env (.all ss ts) st ds st' := by
  match ss with
  | [] =>
    rw [checkAll, gives_pure] at h
    obtain ⟨rfl, rfl, rfl⟩ := h
    exact .nil
  | s :: rest =>
    rw [checkAll] at h
    obtain ⟨t, ds, st₁, ds', hs, others, rfl⟩ := gives_bind.1 h
    obtain ⟨ts, hr, rfl⟩ := gives_bind_pure.1 others
    exact .cons (check_checks env s hs) (checkAll_checks env rest hr)

/-- The check of the groups of a switch follows the rules. -/
theorem checkGroups_checks (env : Surroundings) (line : Line) (seen : LabelsSeen)
    (gs : List (SwitchGroup CaseLabel Stmt)) {gs' : List (SwitchGroup Typed.CaseLabel Typed.Stmt)}
    {st st' : CheckState} {ds : List Diagnostic} (h : Gives (checkGroups env line seen gs) st gs' ds st') :
    Checks env (.groups line seen gs gs') st ds st' := by
  match gs with
  | [] =>
    rw [checkGroups, gives_pure] at h
    obtain ⟨rfl, rfl, rfl⟩ := h
    exact .noGroups
  | ⟨labels, stmts⟩ :: rest =>
    rw [checkGroups] at h
    obtain ⟨⟨labels', seen'⟩, ds₀, ds₁, hl, block, rfl⟩ := gives_reads_bind h fun l => (gives_lift.1 l).2
    obtain ⟨stmts', ds, st₁, ds', hs, others, rfl⟩ := gives_bind.1 block
    obtain ⟨rest', hr, rfl⟩ := gives_bind_pure.1 others
    exact .group (gives_lift.1 hl).1 (checkAll_checks env stmts hs) (checkGroups_checks env line seen' rest hr)

end

end Source.Stmt

open Check in
/-- The check of a piece of a program gives its typed tree. -/
def CheckedPiece.Given (env : Surroundings) (st : CheckState) (ds : List Diagnostic) (st' : CheckState) :
    CheckedPiece → Prop
  | .stmt s t => Gives (s.check env) st t ds st'
  | .all ss ts => Gives (Source.Stmt.checkAll env ss) st ts ds st'
  | .groups line seen gs gs' => Gives (Source.Stmt.checkGroups env line seen gs) st gs' ds st'

namespace Checks

open Check Source.Stmt

/-- Whatever follows the rules is what the check gives. -/
theorem given {env : Surroundings} {piece : CheckedPiece} {st st' : CheckState} {ds : List Diagnostic}
    (h : Checks env piece st ds st') : piece.Given env st ds st' := by
  induction h with
  | block _ ih =>
    rw [CheckedPiece.Given, check]
    exact gives_bind_pure.2 ⟨_, gives_inScope.2 ⟨_, ih, rfl⟩, rfl⟩
  | declare read free =>
    rw [CheckedPiece.Given, check, Check.declare]
    refine gives_bind.2 ⟨_, _, _, _, read, gives_bind.2 ⟨_, _, _, _, gives_get.2 ⟨rfl, rfl, rfl⟩, ?_, rfl⟩,
      (List.append_nil _).symm⟩
    rw [free]
    exact gives_bind_pure.2 ⟨(), gives_modify.2 ⟨rfl, rfl⟩, rfl⟩
  | redeclare read taken =>
    rw [CheckedPiece.Given, check, Check.declare]
    refine gives_bind.2 ⟨_, _, _, _, read, gives_bind.2 ⟨_, _, _, _, gives_get.2 ⟨rfl, rfl, rfl⟩, ?_, rfl⟩, rfl⟩
    rw [taken]
    exact gives_bind_pure.2 ⟨(), gives_report.2 ⟨rfl, rfl⟩, rfl⟩
  | expr read =>
    rw [CheckedPiece.Given, check]
    exact gives_reportUnless_bind.2 ⟨_, gives_bind_pure.2 ⟨_, read, rfl⟩, rfl⟩
  | ifThen cond _ ih =>
    rw [CheckedPiece.Given, check]
    exact gives_bind.2 ⟨_, _, _, _, cond, gives_bind_pure.2 ⟨_, gives_inScope.2 ⟨_, ih, rfl⟩, rfl⟩, rfl⟩
  | ifElse cond _ _ iht ihe =>
    rw [CheckedPiece.Given, check]
    exact gives_bind.2 ⟨_, _, _, _, cond, gives_bind.2 ⟨_, _, _, _, gives_inScope.2 ⟨_, iht, rfl⟩,
      gives_bind_pure.2 ⟨_, gives_inScope.2 ⟨_, ihe, rfl⟩, rfl⟩, rfl⟩, rfl⟩
  | whileDo cond _ ih =>
    rw [CheckedPiece.Given, check]
    exact gives_bind.2 ⟨_, _, _, _, cond,
      gives_freshTarget_bind.2 (gives_bind_pure.2 ⟨_, gives_inScope.2 ⟨_, ih, rfl⟩, rfl⟩), rfl⟩
  | doWhile _ cond ih =>
    rw [CheckedPiece.Given, check]
    exact gives_freshTarget_bind.2 (gives_bind.2 ⟨_, _, _, _, gives_inScope.2 ⟨_, ih, rfl⟩,
      gives_bind_pure.2 ⟨_, cond, rfl⟩, rfl⟩)
  | forEmpty _ cond _ ihi ihu =>
    rw [CheckedPiece.Given, check]
    exact gives_inScope.2 ⟨_, gives_bind.2 ⟨_, _, _, _, ihi, gives_bind.2 ⟨_, _, _, _, cond,
      gives_freshTarget_bind.2 (gives_bind_pure.2 ⟨_, ihu, rfl⟩), rfl⟩, rfl⟩, rfl⟩
  | forLoop _ cond _ _ ihi ihu ihb =>
    rw [CheckedPiece.Given, check]
    exact gives_inScope.2 ⟨_, gives_bind.2 ⟨_, _, _, _, ihi, gives_bind.2 ⟨_, _, _, _, cond,
      gives_freshTarget_bind.2 (gives_bind.2 ⟨_, _, _, _, ihu,
        gives_bind_pure.2 ⟨_, gives_inScope.2 ⟨_, ihb, rfl⟩, rfl⟩, rfl⟩), rfl⟩, rfl⟩, rfl⟩
  | switch read _ ih =>
    rw [CheckedPiece.Given, check]
    exact gives_bind.2 ⟨_, _, _, _, read, gives_reportUnless_bind.2 ⟨_,
      gives_freshTarget_bind.2 (gives_bind_pure.2 ⟨_, ih, rfl⟩), rfl⟩, rfl⟩
  | breakOut =>
    rw [CheckedPiece.Given, check]
    exact gives_bind_pure.2 ⟨(), gives_reportUnless.2 ⟨rfl, rfl⟩, rfl⟩
  | continueLoop =>
    rw [CheckedPiece.Given, check]
    exact gives_bind_pure.2 ⟨(), gives_reportUnless.2 ⟨rfl, rfl⟩, rfl⟩
  | ret read given =>
    rw [CheckedPiece.Given, check]
    exact gives_bind.2 ⟨_, _, _, _, read, gives_bind_pure.2 ⟨(), given, rfl⟩, rfl⟩
  | empty => exact gives_pure.2 ⟨rfl, rfl, rfl⟩
  | nil => exact gives_pure.2 ⟨rfl, rfl, rfl⟩
  | cons _ _ ihs ihr =>
    rw [CheckedPiece.Given, checkAll]
    exact gives_bind.2 ⟨_, _, _, _, ihs, gives_bind_pure.2 ⟨_, ihr, rfl⟩, rfl⟩
  | noGroups => exact gives_pure.2 ⟨rfl, rfl, rfl⟩
  | group labels _ _ ihs ihr =>
    rw [CheckedPiece.Given, checkGroups]
    exact gives_bind.2 ⟨_, _, _, _, gives_lift.2 ⟨labels, rfl⟩,
      gives_bind.2 ⟨_, _, _, _, ihs, gives_bind_pure.2 ⟨_, ihr, rfl⟩, rfl⟩, rfl⟩

end Checks

/-- The check of a program enters its fields and then follows the rules for its body. -/
theorem Source.Program.check_checks (p : Source.Program) :
    ∃ ds st, Checks ⟨p.returns, []⟩ (.all p.body p.check.value.body)
        ⟨(enterFields .empty 0 p.fields).value, 0⟩ ds st ∧
      p.check.reports = (enterFields .empty 0 p.fields).reports ++ ds ∧
      p.check.value.maxLocals = st.names.nextSlot := by
  rw [value_check, reports_check]
  exact ⟨_, _, Stmt.checkAll_checks _ _ (Reporting.gives_self _), rfl, rfl⟩

/-- The rules for the body of a program give its reports. -/
theorem Source.Program.reports_of_checks {p : Source.Program} {ts : List Typed.Stmt} {ds : List Diagnostic}
    {st : CheckState}
    (h : Checks ⟨p.returns, []⟩ (.all p.body ts) ⟨(enterFields .empty 0 p.fields).value, 0⟩ ds st) :
    p.check.reports = (enterFields .empty 0 p.fields).reports ++ ds := by
  rw [reports_check]
  exact congrArg (_ ++ ·) h.given.reports

end Stacklet
