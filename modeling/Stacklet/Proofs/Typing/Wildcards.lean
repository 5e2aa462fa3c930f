import Stacklet.Proofs.Lowering.Errors
import Stacklet.Proofs.Typing.CheckedExpr
import Stacklet.Proofs.Typing.Derivation
import Stacklet.Proofs.Typing.Limit

/-!
# Failures and wildcards

An operator fails without a report on an operand of type `any`, which is taken to have been reported. That is not
so for what is declared with that type. As long as no operator is applied to such a wildcard, every error node of
the tree goes back to a report of its own, and a program that passes the check has none. One that applies an
operator to a wildcard has an error node even if it passes (`failures_reported`).
-/

namespace Stacklet

namespace Source

namespace Expr

variable (names : Names)

/-- Whether an expression has the type `any` by declaration. -/
def isWildcard : Expr → Bool
  | .var _ name => (names.lookup? name).any (·.ty == .any)
  | .field _ name => (names.field? name).any (·.ty == .any)
  | .assign _ target _ => target.isWildcard
  | .literal .. | .unary .. | .step .. | .binary .. => false

/-- Whether no operator in an expression is applied to a wildcard. -/
def sparesWildcards : Expr → Bool
  | .literal .. | .var .. | .field .. => true
  | .unary _ _ e | .step _ _ e => e.sparesWildcards && !e.isWildcard names
  | .binary _ _ l r => l.sparesWildcards && r.sparesWildcards && !l.isWildcard names && !r.isWildcard names
  | .assign _ target value => target.sparesWildcards && value.sparesWildcards

end Expr

namespace Stmt

mutual

/-- The names behind a statement, by those in front of it. -/
def namesAfter (names : Names) : Stmt → Names
  | .block _ body => (allNamesAfter names.openScope body).closeScope
  | .declare _ name ty _ => (names.declare? name ty).elim names (·.2)
  | .ifElse _ _ t none => (t.namesAfter names.openScope).closeScope
  | .ifElse _ _ t (some e) => (e.namesAfter (t.namesAfter names.openScope).closeScope.openScope).closeScope
  | .whileDo _ _ body | .doWhile _ body _ => (body.namesAfter names.openScope).closeScope
  | .forLoop _ init _ update none => (allNamesAfter (allNamesAfter names.openScope init) update).closeScope
  | .forLoop _ init _ update (some body) =>
    (body.namesAfter (allNamesAfter (allNamesAfter names.openScope init) update).openScope).closeScope.closeScope
  | .switch _ _ groups => groupsNamesAfter names groups
  | .expr .. | .breakOut _ | .continueLoop _ | .ret .. | .empty _ => names

/-- The names behind statements in order. -/
def allNamesAfter (names : Names) : List Stmt → Names
  | [] => names
  | s :: rest => allNamesAfter (s.namesAfter names) rest

/-- The names behind the groups of a switch, which share one scope. -/
def groupsNamesAfter (names : Names) : List (SwitchGroup CaseLabel Stmt) → Names
  | [] => names
  | ⟨_, stmts⟩ :: rest => groupsNamesAfter (allNamesAfter names stmts) rest

end

mutual

/-- Whether no operator in a statement is applied to a wildcard. -/
def sparesWildcards (names : Names) : Stmt → Bool
  | .block _ body => allSpareWildcards names.openScope body
  | .declare _ _ _ init => init.all (·.sparesWildcards names)
  | .expr _ e => e.sparesWildcards names
  | .ifElse _ c t none => c.sparesWildcards names && t.sparesWildcards names.openScope
  | .ifElse _ c t (some e) =>
    c.sparesWildcards names && t.sparesWildcards names.openScope &&
      e.sparesWildcards (t.namesAfter names.openScope).closeScope.openScope
  | .whileDo _ c body => c.sparesWildcards names && body.sparesWildcards names.openScope
  | .doWhile _ body c =>
    body.sparesWildcards names.openScope && c.sparesWildcards (body.namesAfter names.openScope).closeScope
  | .forLoop _ init c update none =>
    allSpareWildcards names.openScope init && c.all (·.sparesWildcards (allNamesAfter names.openScope init)) &&
      allSpareWildcards (allNamesAfter names.openScope init) update
  | .forLoop _ init c update (some body) =>
    allSpareWildcards names.openScope init && c.all (·.sparesWildcards (allNamesAfter names.openScope init)) &&
      allSpareWildcards (allNamesAfter names.openScope init) update &&
      body.sparesWildcards (allNamesAfter (allNamesAfter names.openScope init) update).openScope
  | .switch _ d groups => d.sparesWildcards names && groupsSpareWildcards names groups
  | .ret _ value => value.all (·.sparesWildcards names)
  | .breakOut _ | .continueLoop _ | .empty _ => true

/-- Whether no operator in statements is applied to a wildcard. -/
def allSpareWildcards (names : Names) : List Stmt → Bool
  | [] => true
  | s :: rest => s.sparesWildcards names && allSpareWildcards (s.namesAfter names) rest

/-- Whether no operator in the groups of a switch is applied to a wildcard. -/
def groupsSpareWildcards (names : Names) : List (SwitchGroup CaseLabel Stmt) → Bool
  | [] => true
  | ⟨_, stmts⟩ :: rest =>
    allSpareWildcards names stmts && groupsSpareWildcards (allNamesAfter names stmts) rest

end

end Stmt

/-- Whether no operator in a program is applied to a wildcard. -/
def Program.sparesWildcards (p : Program) : Bool :=
  Stmt.allSpareWildcards (enterFields .empty 0 p.fields).value p.body

end Source

/-- The error nodes of something checked, against its reports. If it spares wildcards, there are no more of
them than reports. If there are neither error nodes nor reports, it does so. -/
structure Accounted (spares : Bool) (errors : List Line) (ds : List Diagnostic) : Prop where
  bounded : spares = true → errors.length ≤ ds.length
  exact : ds = [] → errors = [] → spares = true

namespace Accounted

variable {spares spares' : Bool} {errors errors' : List Line} {ds ds' : List Diagnostic}

theorem nil (ds : List Diagnostic) : Accounted true [] ds := ⟨fun _ => Nat.zero_le _, fun _ _ => rfl⟩

theorem append (h : Accounted spares errors ds) (h' : Accounted spares' errors' ds') :
    Accounted (spares && spares') (errors ++ errors') (ds ++ ds') where
  bounded both := by
    rw [Bool.and_eq_true] at both
    rw [List.length_append, List.length_append]
    exact Nat.add_le_add (h.bounded both.1) (h'.bounded both.2)
  exact silent none := by
    rw [List.append_eq_nil_iff] at silent none
    rw [h.exact silent.1 none.1, h'.exact silent.2 none.2]
    rfl

/-- Reports behind. -/
theorem before (h : Accounted spares errors ds) (ds' : List Diagnostic) : Accounted spares errors (ds ++ ds') := by
  have both := h.append (nil ds')
  rwa [Bool.and_true, List.append_nil] at both

/-- Reports in front. -/
theorem behind (h : Accounted spares errors ds) (ds' : List Diagnostic) : Accounted spares errors (ds' ++ ds) :=
  (nil ds').append h

end Accounted

/-! ## Expressions -/

namespace Typed.Expr

/-- An expression with no more error nodes than there are reports. It is of type `any` only if something has been
reported, or if it is a wildcard. -/
structure Covered (e : Expr) (wildcard : Bool) (ds : List Diagnostic) : Prop where
  errors : e.errorLines.length ≤ ds.length
  any : e.ty = .any → wildcard = true ∨ 0 < ds.length

variable {line : Line} {wildcard : Bool} {ds ds' : List Diagnostic} {e : Expr}

namespace Covered

/-- One report is enough for an expression that fails as a whole. -/
theorem failed (h : 0 < ds.length) : (failed line).Covered wildcard ds := ⟨h, fun _ => .inr h⟩

theorem proper (errors : e.errorLines.length ≤ ds.length) (h : e.ty ≠ .any) : e.Covered wildcard ds :=
  ⟨errors, fun same => absurd same h⟩

theorem mono (h : e.Covered wildcard ds) (more : ds.length ≤ ds'.length) : e.Covered wildcard ds' where
  errors := Nat.le_trans h.errors more
  any same := (h.any same).imp_right fun reported => Nat.lt_of_lt_of_le reported more

theorem before (h : e.Covered wildcard ds) (ds' : List Diagnostic) : e.Covered wildcard (ds ++ ds') :=
  h.mono (by rw [List.length_append]; exact Nat.le_add_right _ _)

theorem behind (h : e.Covered wildcard ds) (ds' : List Diagnostic) : e.Covered wildcard (ds' ++ ds) :=
  h.mono (by rw [List.length_append]; exact Nat.le_add_left _ _)

theorem reported (ds : List Diagnostic) (d : Diagnostic) : (Expr.failed line).Covered wildcard (ds ++ [d]) :=
  failed (by rw [List.length_append]; exact Nat.succ_pos _)

/-- An operand of type `any` that is no wildcard has been reported. -/
theorem length_pos (h : e.Covered false ds) (any : e.ty = .any) : 0 < ds.length :=
  (h.any any).resolve_left Bool.false_ne_true

end Covered

theorem checkNegate_covered (h : e.Covered false ds) :
    (checkNegate line e).value.Covered false (ds ++ (checkNegate line e).reports) := by
  unfold checkNegate
  split
  · next any => exact (Covered.failed (h.length_pos any)).before _
  · split
    · next kind _ =>
      have negated : (negate line kind.ty e).Covered false ds :=
        .proper h.errors fun any => by cases kind <;> cases any
      exact negated.before _
    · exact .reported _ _

theorem checkNot_covered (h : e.Covered false ds) :
    (checkNot line e).value.Covered false (ds ++ (checkNot line e).reports) := by
  unfold checkNot
  split
  · have negated : (not line .boolean e).Covered false ds := .proper h.errors fun any => by cases any
    exact negated.before _
  · next any => exact (Covered.failed (h.length_pos any)).before _
  · exact .reported _ _

theorem checkStep_covered {op : StepOp} {p : Place} (proper : p.ty ≠ .any) :
    (checkStep line op p).value.Covered false (ds ++ (checkStep line op p).reports) := by
  unfold checkStep
  rw [if_neg proper]
  split
  · exact .proper (Nat.zero_le _) proper
  · exact .reported _ _

theorem checkBinary_covered {op : BinaryOp} {l r : Expr} (hl : l.Covered false ds) (hr : r.Covered false ds') :
    (checkBinary line op l r).value.Covered false (ds ++ (ds' ++ (checkBinary line op l r).reports)) := by
  rw [← List.append_assoc]
  have both : (l.errorLines ++ r.errorLines).length ≤ (ds ++ ds').length := by
    rw [List.length_append, List.length_append]
    exact Nat.add_le_add hl.errors hr.errors
  unfold checkBinary
  split
  · next any =>
    refine (Covered.failed ?_).before _
    rw [List.length_append]
    exact any.elim (fun any => Nat.add_pos_left (hl.length_pos any) _) fun any =>
      Nat.add_pos_right _ (hr.length_pos any)
  · next proper =>
    split
    · next ty result =>
      have combined : (binary line ty op l r).Covered false (ds ++ ds') :=
        .proper both (resultType_ne_any result fun any => proper (.inl any))
      exact combined.before _
    · exact .reported _ _

theorem checkAssign_covered {p : Place} {operand : Bool} (target : p.ty = .any → wildcard = true)
    (he : e.Covered operand ds) :
    (checkAssign line p e).value.Covered wildcard (ds ++ (checkAssign line p e).reports) := by
  rw [checkAssign_eq]
  split
  · have assigned : (assign line p.ty p e).Covered wildcard ds := ⟨he.errors, fun any => .inl (target any)⟩
    exact assigned.before _
  · exact .reported _ _

/-! An operand that fails the check, or that is a wildcard, makes every operator fail. -/

theorem checkNegate_fails (h : e.ty = .any ∨ e.errorLines ≠ []) : (checkNegate line e).value.errorLines ≠ [] := by
  unfold checkNegate
  split
  · exact List.cons_ne_nil _ _
  · next proper =>
    split
    · exact h.resolve_left proper
    · exact List.cons_ne_nil _ _

theorem checkNot_fails (h : e.ty = .any ∨ e.errorLines ≠ []) : (checkNot line e).value.errorLines ≠ [] := by
  unfold checkNot
  split
  · next boolean => exact h.resolve_left fun any => by rw [boolean] at any; cases any
  · exact List.cons_ne_nil _ _
  · exact List.cons_ne_nil _ _

theorem checkBinary_fails {op : BinaryOp} {l r : Expr}
    (h : (l.ty = .any ∨ r.ty = .any) ∨ l.errorLines ++ r.errorLines ≠ []) :
    (checkBinary line op l r).value.errorLines ≠ [] := by
  unfold checkBinary
  split
  · exact List.cons_ne_nil _ _
  · next proper =>
    split
    · exact h.resolve_left proper
    · exact List.cons_ne_nil _ _

theorem checkAssign_fails {p : Place} (h : e.errorLines ≠ []) : (checkAssign line p e).value.errorLines ≠ [] := by
  rw [checkAssign_eq]
  split
  · exact h
  · exact List.cons_ne_nil _ _

theorem ty_checkAssign {p : Place} (h : p.ty = .any) : (checkAssign line p e).value.ty = .any := by
  rw [checkAssign_eq]
  split
  · exact h
  · rfl

end Typed.Expr

namespace Source.Expr

variable {names : Names}

/-- An operand that is resolved is a wildcard by the type of its place. -/
theorem isWildcard_iff {role : String} {operand : Expr} {checked : Reporting Typed.Expr} [checked.Steady]
    {p : Place} (resolved : (resolvePlace names role operand checked).value = some p) :
    operand.isWildcard names = true ↔ p.ty = .any := by
  cases operand with
  | var line name =>
    change (resolveName names line name).value = some p at resolved
    unfold resolveName at resolved
    split at resolved
    · next found =>
      cases resolved
      rw [isWildcard, found, Option.any_some, beq_iff_eq]
    · cases resolved
  | field line name =>
    change (resolveField names line name).value = some p at resolved
    unfold resolveField at resolved
    split at resolved
    · next found =>
      cases resolved
      rw [isWildcard, found, Option.any_some, beq_iff_eq]
      rfl
    · cases resolved
  | literal | unary | step | binary | assign =>
    simp only [resolvePlace, Reporting.value_bind] at resolved
    cases resolved

/-- An operand that is resolved has no operator. -/
theorem spares_of_resolvePlace {role : String} {operand : Expr} {checked : Reporting Typed.Expr} [checked.Steady]
    {p : Place} (resolved : (resolvePlace names role operand checked).value = some p) :
    operand.sparesWildcards names = true := by
  cases operand with
  | var | field => rfl
  | literal | unary | step | binary | assign =>
    simp only [resolvePlace, Reporting.value_bind] at resolved
    cases resolved

/-- An operand that is not resolved has been reported. -/
theorem length_resolvePlace_pos {role : String} {operand : Expr} {checked : Reporting Typed.Expr} [checked.Steady]
    (h : (resolvePlace names role operand checked).value = none) :
    0 < (resolvePlace names role operand checked).reports.length := by
  have known : names.Known fun _ => True := ⟨fun _ _ _ _ _ => trivial, fun _ => trivial⟩
  refine List.length_pos_iff.2 fun silent => ?_
  obtain ⟨p, found, -⟩ := resolvePlace_known known silent
  rw [h] at found
  cases found

theorem ofPlace_covered (role : String) (operand : Expr) (checked : Reporting Typed.Expr) [checked.Steady] :
    (Typed.Expr.ofPlace operand.line (resolvePlace names role operand checked).value).Covered
      (operand.isWildcard names) (resolvePlace names role operand checked).reports := by
  cases resolved : (resolvePlace names role operand checked).value with
  | none => exact .failed (length_resolvePlace_pos resolved)
  | some p => exact ⟨Nat.zero_le _, fun any => .inl ((isWildcard_iff resolved).2 any)⟩

/-- The error nodes of an expression that spares wildcards go back to reports. -/
theorem check_covered (e : Expr) (spares : e.sparesWildcards names = true) :
    (e.check names).value.Covered (e.isWildcard names) (e.check names).reports := by
  induction e with
  | literal line v => exact .proper (Nat.zero_le _) fun any => by cases v <;> cases any
  | var line name =>
    simp only [check, Reporting.value_bind, Reporting.reports_bind]
    exact (ofPlace_covered "" (.var line name) (pure (.failed line))).before []
  | field line name =>
    simp only [check, Reporting.value_bind, Reporting.reports_bind]
    exact (ofPlace_covered "" (.field line name) (pure (.failed line))).before []
  | unary line op e ih =>
    simp only [sparesWildcards, Bool.and_eq_true, Bool.not_eq_true'] at spares
    have operand := ih spares.1
    rw [spares.2] at operand
    cases op <;> simp only [check, Reporting.value_bind, Reporting.reports_bind]
    · exact Typed.Expr.checkNegate_covered operand
    · exact Typed.Expr.checkNot_covered operand
  | step line op e ih =>
    simp only [sparesWildcards, Bool.and_eq_true, Bool.not_eq_true'] at spares
    simp only [check, Reporting.value_bind, Reporting.reports_bind]
    rw [Typed.Expr.atPlace.eq_def]
    split
    · next p resolved =>
      refine Typed.Expr.checkStep_covered fun any => ?_
      rw [(isWildcard_iff resolved).2 any] at spares
      cases spares.2
    · next unresolved => exact (Typed.Expr.Covered.failed (length_resolvePlace_pos unresolved)).before _
  | binary line op l r ihl ihr =>
    simp only [sparesWildcards, Bool.and_eq_true, Bool.not_eq_true'] at spares
    obtain ⟨⟨⟨sparesL, sparesR⟩, properL⟩, properR⟩ := spares
    have left := ihl sparesL
    have right := ihr sparesR
    rw [properL] at left
    rw [properR] at right
    simp only [check, Reporting.value_bind, Reporting.reports_bind]
    exact Typed.Expr.checkBinary_covered left right
  | assign line target value _ ih =>
    simp only [sparesWildcards, Bool.and_eq_true] at spares
    have operand := ih spares.2
    simp only [check, Reporting.value_bind, Reporting.reports_bind]
    rw [Typed.Expr.atPlace.eq_def]
    split
    · next p resolved =>
      exact (Typed.Expr.checkAssign_covered (isWildcard_iff resolved).2 operand).behind _
    · next unresolved => exact (Typed.Expr.Covered.failed (length_resolvePlace_pos unresolved)).before _

/-- A wildcard has the type `any`. -/
theorem ty_check_of_isWildcard {e : Expr} (h : e.isWildcard names = true) : (e.check names).value.ty = .any := by
  have loaded (operand : Expr) (wildcard : operand.isWildcard names = true) :
      (Typed.Expr.ofPlace operand.line
        (resolvePlace names "" operand (pure (.failed operand.line))).value).ty = .any := by
    cases resolved : (resolvePlace names "" operand (pure (.failed operand.line))).value with
    | none => rfl
    | some p => exact (isWildcard_iff resolved).1 wildcard
  cases e with
  | var line name =>
    simp only [check, Reporting.value_bind]
    exact loaded (.var line name) h
  | field line name =>
    simp only [check, Reporting.value_bind]
    exact loaded (.field line name) h
  | assign line target value =>
    simp only [check, Reporting.value_bind]
    rw [Typed.Expr.atPlace.eq_def]
    split
    · next p resolved => exact Typed.Expr.ty_checkAssign ((isWildcard_iff resolved).1 h)
    · rfl
  | literal | unary | step | binary => cases h

/-- An expression that does not spare wildcards has an error node. -/
theorem check_fails (e : Expr) (h : e.sparesWildcards names = false) : (e.check names).value.errorLines ≠ [] := by
  induction e with
  | literal | var | field => cases h
  | unary line op e ih =>
    simp only [sparesWildcards, Bool.and_eq_false_iff, Bool.not_eq_false'] at h
    have operand := h.symm.imp ty_check_of_isWildcard ih
    cases op <;> simp only [check, Reporting.value_bind]
    · exact Typed.Expr.checkNegate_fails operand
    · exact Typed.Expr.checkNot_fails operand
  | step line op e =>
    simp only [sparesWildcards, Bool.and_eq_false_iff, Bool.not_eq_false'] at h
    simp only [check, Reporting.value_bind]
    rw [Typed.Expr.atPlace.eq_def]
    split
    · next p resolved =>
      rw [spares_of_resolvePlace resolved] at h
      have any := (isWildcard_iff resolved).1 (h.resolve_left (by decide))
      unfold Typed.Expr.checkStep
      rw [if_pos any]
      exact List.cons_ne_nil _ _
    · exact List.cons_ne_nil _ _
  | binary line op l r ihl ihr =>
    simp only [sparesWildcards, Bool.and_eq_false_iff, Bool.not_eq_false'] at h
    simp only [check, Reporting.value_bind]
    refine Typed.Expr.checkBinary_fails ?_
    rcases h with ((failed | failed) | wildcard) | wildcard
    · exact .inr (List.append_ne_nil_of_left_ne_nil (ihl failed) _)
    · exact .inr (List.append_ne_nil_of_right_ne_nil _ (ihr failed))
    · exact .inl (.inl (ty_check_of_isWildcard wildcard))
    · exact .inl (.inr (ty_check_of_isWildcard wildcard))
  | assign line target value _ ih =>
    simp only [sparesWildcards, Bool.and_eq_false_iff] at h
    simp only [check, Reporting.value_bind]
    rw [Typed.Expr.atPlace.eq_def]
    split
    · next p resolved =>
      rw [spares_of_resolvePlace resolved] at h
      exact Typed.Expr.checkAssign_fails (ih (h.resolve_left (by decide)))
    · exact List.cons_ne_nil _ _

theorem check_accounted (e : Expr) :
    Accounted (e.sparesWildcards names) (e.check names).value.errorLines (e.check names).reports where
  bounded spares := (e.check_covered spares).errors
  exact _ none := Bool.of_not_eq_false fun failed => e.check_fails failed none

end Source.Expr

/-! ## Statements -/

namespace Check

variable {st : CheckState} {ds : List Diagnostic} {e : Source.Expr} {t : Typed.Expr}

theorem accounted_expr (read : Reads (expr e) st t ds) :
    Accounted (e.sparesWildcards st.names) t.errorLines ds := by
  rw [← (reads_expr.1 read).value, ← (reads_expr.1 read).reports]
  exact e.check_accounted

theorem accounted_condition {construct : String} (read : Reads (condition construct e) st t ds) :
    Accounted (e.sparesWildcards st.names) t.errorLines ds := by
  obtain ⟨ds₁, he, rfl⟩ := reads_condition.1 read
  exact (accounted_expr (reads_expr.2 he)).before _

theorem accounted_initializer {ty : Ty} (read : Reads (initializer ty e) st t ds) :
    Accounted (e.sparesWildcards st.names) t.errorLines ds := by
  obtain ⟨ds₁, he, rfl⟩ := reads_initializer.1 read
  exact (accounted_expr (reads_expr.2 he)).before _

theorem accounted_optional {check : Source.Expr → Check Typed.Expr} [∀ e, (check e).Steady]
    (h : ∀ {e t ds}, Reads (check e) st t ds → Accounted (e.sparesWildcards st.names) t.errorLines ds)
    {e : Option Source.Expr} {t : Option Typed.Expr} (read : Reads (optional check e) st t ds) :
    Accounted (e.all (·.sparesWildcards st.names)) (Typed.Stmt.optionErrorLines t) ds := by
  cases e with
  | none =>
    obtain ⟨rfl, -, -⟩ := gives_pure.1 read
    exact .nil ds
  | some e =>
    obtain ⟨t', ds₁, st₁, ds₂, he, hp, rfl⟩ := gives_bind.1 read
    obtain ⟨rfl, -, same⟩ := gives_pure.1 hp
    rw [← same] at he
    exact (h he).before _

end Check

namespace CheckedPiece

/-- The lines of the error nodes of a piece. -/
def errorLines : CheckedPiece → List Line
  | .stmt _ t => t.errorLines
  | .all _ ts => Typed.Stmt.allErrorLines ts
  | .groups _ _ _ gs => Typed.Stmt.groupErrorLines gs

/-- The names behind a piece. -/
def namesAfter (names : Names) : CheckedPiece → Names
  | .stmt s _ => s.namesAfter names
  | .all ss _ => Source.Stmt.allNamesAfter names ss
  | .groups _ _ gs _ => Source.Stmt.groupsNamesAfter names gs

/-- Whether no operator in a piece is applied to a wildcard. -/
def sparesWildcards (names : Names) : CheckedPiece → Bool
  | .stmt s _ => s.sparesWildcards names
  | .all ss _ => Source.Stmt.allSpareWildcards names ss
  | .groups _ _ gs _ => Source.Stmt.groupsSpareWildcards names gs

end CheckedPiece

namespace Checks

variable {env : Surroundings} {piece : CheckedPiece} {st st' : CheckState} {ds : List Diagnostic}

/-- The check leaves the names that the declarations of a piece give. -/
theorem names_eq (h : Checks env piece st ds st') : st'.names = piece.namesAfter st.names := by
  induction h with
  | block _ ih => rw [CheckState.names_closed, ih]; rfl
  | declare _ added => rw [CheckedPiece.namesAfter, Source.Stmt.namesAfter, added]; rfl
  | redeclare _ taken => rw [CheckedPiece.namesAfter, Source.Stmt.namesAfter, taken]; rfl
  | ifThen _ _ ih => rw [CheckState.names_closed, ih]; rfl
  | ifElse _ _ _ iht ihe =>
    rw [CheckState.names_closed, ihe, CheckState.names_opened, CheckState.names_closed, iht]
    rfl
  | whileDo _ _ ih => rw [CheckState.names_closed, ih]; rfl
  | doWhile _ _ ih => rw [CheckState.names_closed, ih]; rfl
  | forEmpty _ _ _ ihi ihu => rw [CheckState.names_closed, ihu, CheckState.names_numbered, ihi]; rfl
  | forLoop _ _ _ _ ihi ihu ihb =>
    rw [CheckState.names_closed, CheckState.names_closed, ihb, CheckState.names_opened, ihu,
      CheckState.names_numbered, ihi]
    rfl
  | switch _ _ ih => rw [ih]; rfl
  | cons _ _ ihs ihr => rw [ihr, ihs]; rfl
  | group _ _ _ ihs ihr => rw [ihr, ihs]; rfl
  | expr | breakOut | continueLoop | ret | empty | nil | noGroups => rfl

open Check in
/-- The error nodes of a piece are accounted for by its reports. -/
theorem accounted (h : Checks env piece st ds st') :
    Accounted (piece.sparesWildcards st.names) piece.errorLines ds := by
  induction h with
  | block _ ih => exact ih
  | declare read => exact accounted_optional accounted_initializer read
  | redeclare =>
    refine ⟨fun _ => Nat.zero_le _, fun silent => ?_⟩
    exact absurd silent (List.append_ne_nil_of_right_ne_nil _ (List.cons_ne_nil _ _))
  | expr read => exact (accounted_expr read).behind _
  | ifThen read _ ih => exact (accounted_condition read).append ih
  | ifElse read part _ iht ihe =>
    rw [CheckState.names_opened, CheckState.names_closed, part.names_eq] at ihe
    rw [← List.append_assoc]
    exact ((accounted_condition read).append iht).append ihe
  | whileDo read _ ih => exact (accounted_condition read).append ih
  | doWhile part read ih =>
    have cond := accounted_condition read
    rw [CheckState.names_closed, part.names_eq] at cond
    exact ih.append cond
  | forEmpty first read _ ihi ihu =>
    have cond := accounted_optional accounted_condition read
    rw [first.names_eq] at cond
    rw [CheckState.names_numbered, first.names_eq] at ihu
    rw [← List.append_assoc]
    exact (ihi.append cond).append ihu
  | forLoop first read again _ ihi ihu ihb =>
    have cond := accounted_optional accounted_condition read
    rw [CheckState.names_opened, again.names_eq, CheckState.names_numbered, first.names_eq] at ihb
    rw [first.names_eq] at cond
    rw [CheckState.names_numbered, first.names_eq] at ihu
    rw [← List.append_assoc, ← List.append_assoc]
    exact ((ihi.append cond).append ihu).append ihb
  | switch read _ ih => exact (accounted_expr read).append (ih.behind _)
  | ret read => exact (accounted_optional accounted_expr read).before _
  | cons part _ ihs ihr =>
    rw [part.names_eq] at ihr
    exact ihs.append ihr
  | group _ part _ ihs ihr =>
    rw [part.names_eq] at ihr
    exact (ihs.append ihr).behind _
  | breakOut | continueLoop | empty | nil | noGroups => exact .nil _

end Checks

namespace Source.Program

/-- As long as no operator is applied to a wildcard, the error nodes of a tree go back to reports, and no program
fails to compile for one. A program that passes the check has no error node exactly in that case. -/
theorem failures_reported (p : Program) (limit : Option Nat) :
    (p.sparesWildcards = true →
      (Typed.Stmt.allErrorLines (p.analyze limit).program.body).length ≤ (p.analyze limit).diagnostics.total ∧
      ∀ options line, p.compile options ≠ .error (.lowering (.failedCheck line))) ∧
    ((p.analyze limit).isOk →
      (Typed.Stmt.allErrorLines (p.analyze limit).program.body = [] ↔ p.sparesWildcards = true)) := by
  obtain ⟨ds, st, checks, reports, -⟩ := p.check_checks
  have accounted : Accounted p.sparesWildcards (Typed.Stmt.allErrorLines p.check.value.body) p.check.reports := by
    rw [reports]
    exact checks.accounted.behind _
  have none (spares : p.sparesWildcards = true) (silent : p.check.reports = []) :
      Typed.Stmt.allErrorLines p.check.value.body = [] := by
    have bounded := accounted.bounded spares
    rw [silent] at bounded
    exact List.eq_nil_of_length_eq_zero (Nat.le_zero.1 bounded)
  rw [program_analyze]
  refine ⟨fun spares => ⟨?_, fun options line failed => ?_⟩, fun accepted => ?_⟩
  · rw [analyze_eq, (Diagnostics.keeps_ofReports limit p.check.reports).total]
    exact accounted.bounded spares
  · obtain ⟨accepted, blamed⟩ := compile_failedCheck failed
    rw [none spares (isOk_analyze_iff.1 accepted)] at blamed
    exact List.not_mem_nil blamed
  · have silent := isOk_analyze_iff.1 accepted
    exact ⟨accounted.exact silent, fun spares => none spares silent⟩

end Source.Program

/-- A program that hands a wildcard on, from a field to a local and to an int, and back. One of its locals hides a
wildcard and is negated. -/
def relayed : Source.Program where
  name := "Relayed"
  fields := [⟨"kept", .any⟩]
  returns := some .int
  body := [
    .declare 1 "a" .any (some (.field 1 "kept")),
    .block 2 [
      .declare 2 "b" .int (some (.var 2 "a")),
      .declare 3 "a" .int (some (.unary 3 .negate (.var 3 "b"))),
      .expr 4 (.assign 4 (.field 4 "kept") (.unary 4 .negate (.var 4 "a")))],
    .ret 5 (some (.var 5 "a"))]

/-- No error node is in its tree. -/
theorem relayed_failures :
    relayed.sparesWildcards = true ∧ (relayed.analyze none).isOk = true ∧
    Typed.Stmt.allErrorLines (relayed.analyze none).program.body = [] ∧
    ∀ options line, relayed.compile options ≠ .error (.lowering (.failedCheck line)) := by
  have spares : relayed.sparesWildcards = true := by decide +kernel
  have accepted : (relayed.analyze none).isOk = true := by decide +kernel
  obtain ⟨compiles, clean⟩ := relayed.failures_reported none
  exact ⟨spares, accepted, (clean accepted).2 spares, (compiles spares).2⟩

/-- A program that negates a wildcard. -/
def negated : Source.Program where
  name := "Negated"
  fields := []
  returns := none
  body := [.declare 1 "a" .any none, .declare 2 "b" .int (some (.unary 2 .negate (.var 2 "a")))]

/-- It passes the check with an error node in its tree, and does not compile. -/
theorem negated_unreported :
    (negated.analyze none).isOk = true ∧
    Typed.Stmt.allErrorLines (negated.analyze none).program.body = [2] ∧
    negated.compile .standard = .error (.lowering (.failedCheck 2)) :=
  ⟨by decide +kernel, by decide +kernel, rfl⟩

end Stacklet
