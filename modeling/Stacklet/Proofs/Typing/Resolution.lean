import Stacklet.Proofs.Typing.CheckedStmt
import Stacklet.Proofs.Typing.Derivation

/-!
# What names are resolved to

The typed tree of a program is its source tree with a place for every name (`CheckedPiece.Resolved`), as long
as the check reports nothing. The places are those that the names in scope stand for, and the locals of the
tree are those of the source, in the same order (`Checks.binds`).
-/

namespace Stacklet

namespace Source

namespace Expr

/-- An expression that names a place, by what names stand for. After `this` a name is that of a field. -/
inductive Denotes (stands : String → Place → Prop) : Expr → Place → Prop
  | var {line name p} : stands name p → Denotes stands (.var line name) p
  | field {line name ref} : stands name (.ofField ref) → Denotes stands (.field line name) (.ofField ref)

/-- An expression with what the check makes of it, by what names stand for. An expression that fails the
check becomes an error node as a whole. -/
inductive Resolved (stands : String → Place → Prop) : Expr → Typed.Expr → Prop
  | literal {line v} : Resolved stands (.literal line v) (.literal line v.ty v)
  | load {e p} : e.Denotes stands p → Resolved stands e (.load e.line p.ty p)
  | negate {line ty e t} : Resolved stands e t → Resolved stands (.unary line .negate e) (.negate line ty t)
  | not {line ty e t} : Resolved stands e t → Resolved stands (.unary line .not e) (.not line ty t)
  | step {line op e p} : e.Denotes stands p → Resolved stands (.step line op e) (.step line p.ty op p)
  | binary {line op ty l l' r r'} : Resolved stands l l' → Resolved stands r r' →
    Resolved stands (.binary line op l r) (.binary line ty op l' r')
  | assign {line target value p t} : target.Denotes stands p → Resolved stands value t →
    Resolved stands (.assign line target value) (.assign line p.ty p t)
  | failed {e} : Resolved stands e (.failed e.line)

variable {stands : String → Place → Prop} {names : Names}

/-- A place that an operand is resolved to is one that it denotes. -/
theorem denotes_of_resolvePlace (h : names.StandFor stands) {role : String} {operand : Expr}
    {checked : Reporting Typed.Expr} [checked.Steady] {p : Place}
    (resolved : (resolvePlace names role operand checked).value = some p) : operand.Denotes stands p := by
  cases operand with
  | var line name =>
    change (resolveName names line name).value = some p at resolved
    unfold resolveName at resolved
    split at resolved
    · next found =>
      cases resolved
      exact .var (h.lookup found)
    · cases resolved
  | field line name =>
    change (resolveField names line name).value = some p at resolved
    unfold resolveField at resolved
    split at resolved
    · next found =>
      cases resolved
      exact .field (h.fields found)
    · cases resolved
  | literal | unary | step | binary | assign =>
    simp only [resolvePlace, Reporting.value_bind] at resolved
    cases resolved

theorem ofPlace_resolved (h : names.StandFor stands) (role : String) (operand : Expr)
    (checked : Reporting Typed.Expr) [checked.Steady] :
    operand.Resolved stands (.ofPlace operand.line (resolvePlace names role operand checked).value) := by
  cases resolved : (resolvePlace names role operand checked).value with
  | none => exact .failed
  | some p => exact .load (denotes_of_resolvePlace h resolved)

/-- The check resolves an expression, whatever it reports. -/
theorem check_resolved (h : names.StandFor stands) (e : Expr) : e.Resolved stands (e.check names).value := by
  induction e with
  | literal line v => exact .literal
  | var line name =>
    simp only [check, Reporting.value_bind]
    exact ofPlace_resolved h "" (.var line name) (pure (.failed line))
  | field line name =>
    simp only [check, Reporting.value_bind]
    exact ofPlace_resolved h "" (.field line name) (pure (.failed line))
  | unary line op e ih =>
    cases op with
    | negate =>
      simp only [check, Reporting.value_bind]
      unfold Typed.Expr.checkNegate
      split
      · exact .failed
      · split
        · exact .negate ih
        · exact .failed
    | not =>
      simp only [check, Reporting.value_bind]
      unfold Typed.Expr.checkNot
      split
      · exact .not ih
      · exact .failed
      · exact .failed
  | step line op e ih =>
    simp only [check, Reporting.value_bind]
    rw [Typed.Expr.atPlace.eq_def]
    split
    · next p resolved =>
      have denotes := denotes_of_resolvePlace h resolved
      unfold Typed.Expr.checkStep
      split
      · exact .failed
      · split
        · exact .step denotes
        · exact .failed
    · exact .failed
  | binary line op l r ihl ihr =>
    simp only [check, Reporting.value_bind]
    unfold Typed.Expr.checkBinary
    split
    · exact .failed
    · split
      · exact .binary ihl ihr
      · exact .failed
  | assign line target value iht ihv =>
    simp only [check, Reporting.value_bind]
    rw [Typed.Expr.atPlace.eq_def]
    split
    · next p resolved =>
      have denotes := denotes_of_resolvePlace h resolved
      rw [Typed.Expr.checkAssign_eq]
      split
      · exact .assign denotes ihv
      · exact .failed
    · exact .failed

end Expr

end Source

namespace CheckedPiece

/-- The locals of a piece, by its source. -/
def declared : CheckedPiece → List (String × Ty)
  | .stmt s _ => s.locals
  | .all ss _ => Source.Stmt.allLocals ss
  | .groups _ _ gs _ => Source.Stmt.groupLocals gs

/-- The locals of a piece, by its typed tree. -/
def locals : CheckedPiece → List LocalVar
  | .stmt _ t => t.locals
  | .all _ ts => Typed.Stmt.allLocals ts
  | .groups _ _ _ gs => Typed.Stmt.groupLocals gs

/-- A piece of a program of which the typed tree is the source with a place for every name. -/
inductive Resolved (stands : String → Place → Prop) : CheckedPiece → Prop
  | block {line body body'} : Resolved stands (.all body body') →
    Resolved stands (.stmt (.block line body) (.block line body'))
  | declare {line name ty var init init'} : stands name (.ofLocal var) →
    Option.Rel (Source.Expr.Resolved stands) init init' →
    Resolved stands (.stmt (.declare line name ty init) (.declare line var init'))
  | expr {line e t} : e.Resolved stands t → Resolved stands (.stmt (.expr line e) (.expr line t))
  | ifThen {line c c' t t'} : c.Resolved stands c' → Resolved stands (.stmt t t') →
    Resolved stands (.stmt (.ifElse line c t none) (.ifElse line c' t' none))
  | ifElse {line c c' t t' e e'} : c.Resolved stands c' → Resolved stands (.stmt t t') →
    Resolved stands (.stmt e e') →
    Resolved stands (.stmt (.ifElse line c t (some e)) (.ifElse line c' t' (some e')))
  | whileDo {line target c c' body body'} : c.Resolved stands c' → Resolved stands (.stmt body body') →
    Resolved stands (.stmt (.whileDo line c body) (.whileDo line target c' body'))
  | doWhile {line target c c' body body'} : Resolved stands (.stmt body body') → c.Resolved stands c' →
    Resolved stands (.stmt (.doWhile line body c) (.doWhile line target body' c'))
  | forEmpty {line target init init' c c' update update'} : Resolved stands (.all init init') →
    Option.Rel (Source.Expr.Resolved stands) c c' → Resolved stands (.all update update') →
    Resolved stands (.stmt (.forLoop line init c update none) (.forLoop line target init' c' update' none))
  | forLoop {line target init init' c c' update update' body body'} : Resolved stands (.all init init') →
    Option.Rel (Source.Expr.Resolved stands) c c' → Resolved stands (.all update update') →
    Resolved stands (.stmt body body') →
    Resolved stands (.stmt (.forLoop line init c update (some body))
      (.forLoop line target init' c' update' (some body')))
  | switch {line target seen d d' groups groups'} : d.Resolved stands d' →
    Resolved stands (.groups line seen groups groups') →
    Resolved stands (.stmt (.switch line d groups) (.switch line target d' groups'))
  | breakOut {line target} : Resolved stands (.stmt (.breakOut line) (.breakOut line target))
  | continueLoop {line target} : Resolved stands (.stmt (.continueLoop line) (.continueLoop line target))
  | ret {line value value'} : Option.Rel (Source.Expr.Resolved stands) value value' →
    Resolved stands (.stmt (.ret line value) (.ret line value'))
  | empty {line} : Resolved stands (.stmt (.empty line) (.empty line))
  | nil : Resolved stands (.all [] [])
  | cons {s t ss ts} : Resolved stands (.stmt s t) → Resolved stands (.all ss ts) →
    Resolved stands (.all (s :: ss) (t :: ts))
  | noGroups {line seen} : Resolved stands (.groups line seen [] [])
  | group {line seen seen' labels labels' stmts stmts' rest rest'} : Resolved stands (.all stmts stmts') →
    Resolved stands (.groups line seen' rest rest') →
    Resolved stands (.groups line seen (⟨labels, stmts⟩ :: rest) (⟨labels', stmts'⟩ :: rest'))

end CheckedPiece

namespace Check

variable {stands : String → Place → Prop} {st : CheckState} {ds : List Diagnostic} {e : Source.Expr}
  {t : Typed.Expr}

theorem resolved_expr (read : Reads (expr e) st t ds) (h : st.names.StandFor stands) : e.Resolved stands t := by
  rw [← (reads_expr.1 read).value]
  exact Source.Expr.check_resolved h e

theorem resolved_condition {construct : String} (read : Reads (condition construct e) st t ds)
    (h : st.names.StandFor stands) : e.Resolved stands t := by
  obtain ⟨ds₁, he, -⟩ := reads_condition.1 read
  exact resolved_expr (reads_expr.2 he) h

theorem resolved_initializer {ty : Ty} (read : Reads (initializer ty e) st t ds) (h : st.names.StandFor stands) :
    e.Resolved stands t := by
  obtain ⟨ds₁, he, -⟩ := reads_initializer.1 read
  exact resolved_expr (reads_expr.2 he) h

theorem resolved_optional {check : Source.Expr → Check Typed.Expr} [∀ e, (check e).Steady] {e : Option Source.Expr}
    {t : Option Typed.Expr}
    (read : Reads (optional check e) st t ds) (h : ∀ {e t ds}, Reads (check e) st t ds → e.Resolved stands t) :
    Option.Rel (Source.Expr.Resolved stands) e t := by
  cases e with
  | none =>
    obtain ⟨rfl, -, -⟩ := gives_pure.1 read
    exact .none
  | some e =>
    obtain ⟨t', ds₁, st₁, ds₂, he, hp, -⟩ := gives_bind.1 read
    obtain ⟨rfl, -, same⟩ := gives_pure.1 hp
    rw [← same] at he
    exact .some (h he)

end Check

/-- Declarations of locals, one for each, and what they make of the names in scope. Whatever relation these and the
names in scope before keep to is kept to after them, and something holds of it. -/
structure Binds (declared : List (String × Ty)) (vars : List LocalVar) (names names' : Names)
    (resolved : (String → Place → Prop) → Prop) : Prop where
  count : declared.length = vars.length
  places : ∀ {stands : String → Place → Prop}, (∀ d ∈ declared.zip vars, stands d.1.1 (.ofLocal d.2)) →
    names.StandFor stands → resolved stands ∧ names'.StandFor stands

namespace Binds

variable {declared declared' : List (String × Ty)} {vars vars' : List LocalVar} {names names' names'' : Names}
  {resolved resolved' also : (String → Place → Prop) → Prop}

/-- Nothing is declared. -/
theorem nil (h : ∀ {stands}, names.StandFor stands → resolved stands) : Binds [] [] names names resolved :=
  ⟨rfl, fun _ hn => ⟨h hn, hn⟩⟩

theorem imp (h : Binds declared vars names names' resolved)
    (imp : ∀ {stands}, resolved stands → resolved' stands) :
    Binds declared vars names names' resolved' :=
  ⟨h.count, fun hd hn => (h.places hd hn).imp_left imp⟩

theorem append (h : Binds declared vars names names' resolved)
    (h' : Binds declared' vars' names' names'' resolved') :
    Binds (declared ++ declared') (vars ++ vars') names names''
      (fun stands => resolved stands ∧ resolved' stands) where
  count := by rw [List.length_append, List.length_append, h.count, h'.count]
  places hd hn := by
    rw [List.zip_append h.count, List.forall_mem_append] at hd
    obtain ⟨first, hn'⟩ := h.places hd.1 hn
    obtain ⟨second, hn''⟩ := h'.places hd.2 hn'
    exact ⟨⟨first, second⟩, hn''⟩

/-- Something that holds of the names before. -/
theorem before (h : Binds declared vars names names' resolved)
    (ha : ∀ {stands}, names.StandFor stands → also stands) :
    Binds declared vars names names' (fun stands => also stands ∧ resolved stands) :=
  ⟨h.count, fun hd hn => (h.places hd hn).imp_left fun hr => ⟨ha hn, hr⟩⟩

/-- Something that holds of the names after. -/
theorem after (h : Binds declared vars names names' resolved)
    (ha : ∀ {stands}, names'.StandFor stands → also stands) :
    Binds declared vars names names' (fun stands => resolved stands ∧ also stands) where
  count := h.count
  places hd hn := by
    obtain ⟨hr, hn'⟩ := h.places hd hn
    exact ⟨⟨hr, ha hn'⟩, hn'⟩

/-- Names in a scope of their own. -/
theorem inScope (h : Binds declared vars names.openScope names' resolved) :
    Binds declared vars names names'.closeScope resolved :=
  ⟨h.count, fun hd hn => (h.places hd hn.openScope).imp_right .closeScope⟩

end Binds

/-- A piece that is checked without a report declares its locals and resolves all its names. -/
theorem Checks.binds {env : Surroundings} {piece : CheckedPiece} {st st' : CheckState} {ds : List Diagnostic}
    (h : Checks env piece st ds st') (silent : ds = []) :
    Binds piece.declared piece.locals st.names st'.names piece.Resolved := by
  induction h with
  | block _ ih => exact (ih silent).inScope.imp .block
  | declare read added =>
    refine ⟨rfl, fun hd hn => ?_⟩
    have here := hd _ List.mem_cons_self
    exact ⟨.declare here (Check.resolved_optional read (Check.resolved_initializer · hn)), hn.declare added here⟩
  | redeclare => exact absurd silent (List.append_ne_nil_of_right_ne_nil _ (List.cons_ne_nil _ _))
  | expr read => exact .nil fun hn => .expr (Check.resolved_expr read hn)
  | ifThen cond _ ih =>
    have inner := ih (List.append_eq_nil_iff.1 silent).2
    exact (inner.inScope.before (Check.resolved_condition cond)).imp fun h => .ifThen h.1 h.2
  | ifElse cond _ _ iht ihe =>
    simp only [List.append_eq_nil_iff] at silent
    have parts := (iht silent.2.1).inScope.append (ihe silent.2.2).inScope
    exact (parts.before (Check.resolved_condition cond)).imp fun h => .ifElse h.1 h.2.1 h.2.2
  | whileDo cond _ ih =>
    have inner := ih (List.append_eq_nil_iff.1 silent).2
    rw [CheckState.names_opened, CheckState.names_numbered] at inner
    exact (inner.inScope.before (Check.resolved_condition cond)).imp fun h => .whileDo h.1 h.2
  | doWhile _ cond ih =>
    have inner := ih (List.append_eq_nil_iff.1 silent).1
    exact (inner.inScope.after (Check.resolved_condition cond)).imp fun h => .doWhile h.1 h.2
  | forEmpty _ cond _ ihi ihu =>
    simp only [List.append_eq_nil_iff] at silent
    have start := (ihi silent.1).after fun hn => Check.resolved_optional cond (Check.resolved_condition · hn)
    exact (start.append (ihu silent.2.2)).inScope.imp fun h => .forEmpty h.1.1 h.1.2 h.2
  | forLoop _ cond _ _ ihi ihu ihb =>
    simp only [List.append_eq_nil_iff] at silent
    have start := (ihi silent.1).after fun hn => Check.resolved_optional cond (Check.resolved_condition · hn)
    have rest := (ihu silent.2.2.1).append (ihb silent.2.2.2).inScope
    exact (start.append rest).inScope.imp fun h => .forLoop h.1.1 h.1.2 h.2.1 h.2.2
  | switch read _ ih =>
    simp only [List.append_eq_nil_iff] at silent
    rw [CheckState.names_numbered] at ih
    exact ((ih silent.2.2).before (Check.resolved_expr read)).imp fun h => .switch h.1 h.2
  | breakOut => exact .nil fun _ => .breakOut
  | continueLoop => exact .nil fun _ => .continueLoop
  | ret read _ => exact .nil fun hn => .ret (Check.resolved_optional read (Check.resolved_expr · hn))
  | empty => exact .nil fun _ => .empty
  | nil => exact .nil fun _ => .nil
  | cons _ _ ihs ihr =>
    simp only [List.append_eq_nil_iff] at silent
    exact ((ihs silent.1).append (ihr silent.2)).imp fun h => .cons h.1 h.2
  | noGroups => exact .nil fun _ => .noGroups
  | group _ _ _ ihs ihr =>
    simp only [List.append_eq_nil_iff] at silent
    exact ((ihs silent.2.1).append (ihr silent.2.2)).imp fun h => .group h.1 h.2

end Stacklet
