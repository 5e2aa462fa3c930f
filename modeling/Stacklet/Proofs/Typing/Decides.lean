import Stacklet.Proofs.Typing.CheckedStmt
import Stacklet.Proofs.Typing.DecidedExpr

/-!
# Checks that decide a condition

`Check.Decides` says of a check what the rules say of a statement: in a context it reports nothing exactly
if a condition holds and the scope that it stands in takes the locals that it declares, and it leaves names
that show the context with these locals. There is a rule for checks in sequence, one for checks in scopes
of their own, and one for each of the small checks that statements are made of.
-/

namespace Stacklet

/-! ## Scopes -/

theorem nodup_snoc_iff {α : Type} {xs : List α} {x : α} : (xs ++ [x]).Nodup ↔ xs.Nodup ∧ x ∉ xs := by
  rw [List.nodup_append]
  constructor
  · rintro ⟨apart, -, last⟩
    exact ⟨apart, fun mem => last x mem x (List.mem_singleton.2 rfl) rfl⟩
  · rintro ⟨apart, fresh⟩
    refine ⟨apart, List.pairwise_singleton _ _, ?_⟩
    rintro y mem _ last rfl
    exact fresh (List.mem_singleton.1 last ▸ mem)

/-- Names that show a context, with the names of the innermost scope and with the scopes around it. -/
structure Names.Tracks (names : Names) (ctx : Context) (own : List String) (outer : List Scope) : Prop
    extends Names.Shows names ctx where
  taken : ∀ name, name ∈ names.innermost ↔ name ∈ own
  apart : own.Nodup
  around : names.outer = outer

namespace Names.Tracks

variable {names names' : Names} {ctx ctx' : Context} {own own' : List String} {outer : List Scope}

theorem openScope (h : names.Tracks ctx own outer) :
    names.openScope.Tracks ctx [] (names.innermost :: outer) where
  locals name := by
    have same : names.openScope.local? name = names.local? name := by
      rw [local?, scopes, List.findSome?_cons,
        show names.openScope.innermost[name]? = none from Std.TreeMap.getElem?_emptyc]
      rfl
    rw [same]
    exact h.locals name
  fields := h.fields
  proper := h.proper
  taken name := ⟨fun mem => absurd mem Std.TreeMap.not_mem_emptyc, nofun⟩
  apart := .nil
  around := congrArg (names.innermost :: ·) h.around

/-- Closing a scope leads back to the names before it was opened. -/
theorem closeScope (h : names.Tracks ctx own outer)
    (inner : names'.Tracks ctx' own' (names.innermost :: outer)) (same : ctx'.fields = ctx.fields) :
    names'.closeScope.Tracks ctx own outer := by
  rw [Names.closeScope_eq inner.around]
  refine ⟨⟨fun name => ?_, fun name ty => ?_, h.proper⟩, h.taken, h.apart, rfl⟩
  · rw [← h.locals name, local?, local?, scopes, scopes, h.around]
  · rw [← same]
    exact inner.fields name ty

theorem declare?_eq_none_iff (h : names.Tracks ctx own outer) {name : String} {ty : Ty} :
    names.declare? name ty = none ↔ ¬(own ++ [name]).Nodup := by
  have fresh : (own ++ [name]).Nodup ↔ name ∉ names.innermost := by
    rw [h.taken, nodup_snoc_iff]
    exact and_iff_right h.apart
  rw [fresh, Classical.not_not, declare?]
  split
  · next taken => exact ⟨fun _ => taken, fun _ => rfl⟩
  · next free => exact ⟨nofun, fun taken => absurd taken free⟩

theorem declare (h : names.Tracks ctx own outer) {name : String} {ty : Ty} {var : LocalVar}
    (declared : names.declare? name ty = some (var, names')) (proper : ty ≠ .any) :
    names'.Tracks (ctx.extend [(name, ty)]) (own ++ [name]) outer := by
  have apart : (own ++ [name]).Nodup := by
    refine Classical.not_not.1 fun clash => ?_
    rw [h.declare?_eq_none_iff.2 clash] at declared
    cases declared
  obtain ⟨rfl, rfl⟩ := Names.declare?_eq_some declared
  refine ⟨⟨fun other => ?_, h.fields, ⟨fun d mem => ?_, h.proper.fields⟩⟩, fun other => ?_, apart, h.around⟩
  · change _ = ((name, ty) :: ctx.locals).lookup other
    rw [local?, scopes, List.findSome?_cons, Std.TreeMap.getElem?_insert, List.lookup_cons]
    by_cases same : other = name
    · subst same
      simp
    · have apart : compare name other ≠ .eq := by simpa using fun e => same e.symm
      rw [if_neg apart, beq_false_of_ne same, ← h.locals other]
      rfl
  · rcases List.mem_cons.1 mem with rfl | mem
    · exact proper
    · exact h.proper.locals d mem
  · rw [Std.TreeMap.mem_insert, Std.LawfulEqOrd.compare_eq_iff_eq, List.mem_append, List.mem_singleton,
      h.taken, or_comm, eq_comm]

end Names.Tracks

theorem Context.extend_extend (ctx : Context) (declared declared' : List (String × Ty)) :
    (ctx.extend declared).extend declared' = ctx.extend (declared ++ declared') := by
  rw [extend, extend, extend, List.reverse_append, List.append_assoc]

/-! ## Checks that decide a condition -/

namespace Check

/-- A check that decides a condition in a context. Over all names that show the context, it reports nothing
exactly if the condition holds and the innermost scope takes the declared locals. It then gives a result
that is as promised, and names that show the context with these locals. -/
def Decides {α : Type} (x : Check α) (ctx : Context) (ok : Prop) (declared : List (String × Ty))
    (promised : α → Prop) : Prop :=
  ∀ ⦃st : CheckState⦄ ⦃own : List String⦄ ⦃outer : List Scope⦄, st.names.Tracks ctx own outer →
    (Reporting.reports (x.run st) = [] ↔ ok ∧ (own ++ declared.map (·.1)).Nodup) ∧
    (ok → (own ++ declared.map (·.1)).Nodup → promised (Reporting.value (x.run st)).1 ∧
      (Reporting.value (x.run st)).2.names.Tracks (ctx.extend declared) (own ++ declared.map (·.1)) outer)

namespace Decides

variable {α β : Type} {x : Check α} {f : α → Check β} {ctx : Context} {ok ok' : Prop}
  {declared declared' : List (String × Ty)} {promised : α → Prop} {promised' : β → Prop}

/-- One check after another, with the locals of the first. -/
theorem bind [x.Steady] [∀ a, (f a).Steady] (h : Decides x ctx ok declared promised)
    (h' : ∀ a, promised a → Decides (f a) (ctx.extend declared) ok' declared' promised') :
    Decides (x >>= f) ctx (ok ∧ ok') (declared ++ declared') promised' := by
  intro st own outer tracks
  obtain ⟨silent, after⟩ := h tracks
  have given : Gives (x >>= f) st _ _ _ :=
    gives_bind.2 ⟨_, _, _, _, Reporting.gives_self _, Reporting.gives_self _, rfl⟩
  rw [given.value, given.reports, List.append_eq_nil_iff, silent, List.map_append, ← List.append_assoc]
  -- A scope that takes all locals takes the first ones.
  have fewer : (own ++ declared.map (·.1) ++ declared'.map (·.1)).Nodup → (own ++ declared.map (·.1)).Nodup :=
    List.Nodup.sublist (List.sublist_append_left _ _)
  constructor
  · constructor
    · rintro ⟨⟨holds, apart⟩, silent'⟩
      obtain ⟨kept, tracks'⟩ := after holds apart
      obtain ⟨holds', apart'⟩ := (h' _ kept tracks').1.1 silent'
      exact ⟨⟨holds, holds'⟩, apart'⟩
    · rintro ⟨⟨holds, holds'⟩, apart⟩
      obtain ⟨kept, tracks'⟩ := after holds (fewer apart)
      exact ⟨⟨holds, fewer apart⟩, (h' _ kept tracks').1.2 ⟨holds', apart⟩⟩
  · rintro ⟨holds, holds'⟩ apart
    obtain ⟨kept, tracks'⟩ := after holds (fewer apart)
    rw [← Context.extend_extend]
    exact (h' _ kept tracks').2 holds' apart

theorem congr (h : Decides x ctx ok declared promised) (same : ok ↔ ok') :
    Decides x ctx ok' declared promised := by
  intro st own outer tracks
  rw [← same]
  exact h tracks

/-- A check that changes nothing but a result. -/
theorem pure {a : α} (h : promised a) : Decides (Pure.pure a) ctx True [] promised := by
  intro st own outer tracks
  have apart : (own ++ []).Nodup := by
    rw [List.append_nil]
    exact tracks.apart
  refine ⟨⟨fun _ => ⟨trivial, apart⟩, fun _ => rfl⟩, fun _ _ => ⟨h, ?_⟩⟩
  rw [List.map_nil, List.append_nil]
  exact tracks

/-- A check that declares nothing before another one. -/
theorem before [x.Steady] [∀ a, (f a).Steady] (h : Decides x ctx ok [] promised)
    (h' : ∀ a, promised a → Decides (f a) ctx ok' declared promised') :
    Decides (x >>= f) ctx (ok ∧ ok') declared promised' :=
  h.bind h'

/-- A check whose result is passed on. -/
theorem map [x.Steady] (h : Decides x ctx ok declared promised) (g : α → β) (kept : ∀ a, promised a → promised' (g a)) :
    Decides (x >>= fun a => Pure.pure (g a)) ctx ok declared promised' := by
  have both : Decides (x >>= fun a => Pure.pure (g a)) ctx (ok ∧ True) (declared ++ []) promised' :=
    h.bind fun a promised => .pure (kept a promised)
  rw [List.append_nil] at both
  exact both.congr (and_iff_left trivial)

/-- A check in a scope of its own. -/
theorem inScope [x.Steady] (h : Decides x ctx ok declared promised) :
    Decides (Check.inScope x) ctx (ok ∧ Source.Stmt.NamedApart declared) [] promised := by
  intro st own outer tracks
  have opened : st.opened.names.Tracks ctx [] _ := tracks.openScope
  obtain ⟨silent, after⟩ := h opened
  have given : Gives (Check.inScope x) st _ _ _ := gives_inScope.2 ⟨_, Reporting.gives_self (x.run st.opened), rfl⟩
  rw [given.value, given.reports, silent, List.map_nil, List.append_nil]
  refine ⟨(and_iff_left tracks.apart).symm, fun ⟨holds, apart⟩ _ => ?_⟩
  obtain ⟨kept, inner⟩ := after holds apart
  exact ⟨kept, tracks.closeScope inner rfl⟩

/-- A check that reports or changes no names. -/
theorem ofReports {r : CheckState → Reporting α} {g : CheckState → CheckState}
    (runs : ∀ st, Reporting.Gives (x.run st) ((r st).value, g st) (r st).reports)
    (names : ∀ st, (g st).names = st.names)
    (h : ∀ st, st.names.Shows ctx → ((r st).reports = [] ↔ ok) ∧ (ok → promised (r st).value)) :
    Decides x ctx ok [] promised := by
  intro st own outer tracks
  obtain ⟨silent, kept⟩ := h st tracks.toShows
  rw [(runs st).value, (runs st).reports, List.map_nil, List.append_nil]
  refine ⟨silent.trans (and_iff_left tracks.apart).symm, fun holds _ => ⟨kept holds, ?_⟩⟩
  change (g st).names.Tracks _ _ _
  rw [names]
  exact tracks

end Decides

variable {ctx : Context}

/-- A check that does not look at the names. -/
theorem decides_lift {α : Type} {x : Reporting α} [x.Steady] {ok : Prop} {promised : α → Prop}
    (h : (x.reports = [] ↔ ok) ∧ (ok → promised x.value)) : Decides (StateT.lift x) ctx ok [] promised :=
  .ofReports (r := fun _ => x) (g := id) (fun _ => gives_lift.2 ⟨Reporting.gives_self _, rfl⟩) (fun _ => rfl)
    fun _ _ => h

theorem decides_reportUnless {holds : Bool} {d : Diagnostic} :
    Decides (reportUnless holds d) ctx (holds = true) [] fun _ => True :=
  decides_lift ⟨reports_reportUnless_eq_nil_iff, fun _ => trivial⟩

/-- What follows a new number does not depend on it. -/
theorem decides_freshTarget {β : Type} {f : Target → Check β} [∀ t, (f t).Steady] {ok : Prop}
    {declared : List (String × Ty)} {promised : β → Prop} (h : ∀ target, Decides (f target) ctx ok declared promised) :
    Decides (freshTarget >>= f) ctx ok declared promised := by
  have fresh : Decides freshTarget ctx True [] fun _ => True :=
    .ofReports (r := fun st => pure st.nextTarget) (g := fun st => { st with nextTarget := st.nextTarget + 1 })
      (fun _ => ⟨rfl, rfl⟩) (fun _ => rfl) fun _ _ => ⟨⟨fun _ => trivial, fun _ => rfl⟩, fun _ => trivial⟩
  exact (fresh.before fun target _ => h target).congr (and_iff_right trivial)

/-- An expression is given a type if it has one. -/
theorem decides_expr (e : Source.Expr) :
    Decides (expr e) ctx (∃ ty, e.HasTy ctx ty) [] fun t =>
      t.ty ≠ .any ∧ ∀ ty, t.ty = ty ↔ e.HasTy ctx ty := by
  refine .ofReports (r := fun st => e.check st.names) (g := id)
    (fun _ => gives_expr.2 ⟨Reporting.gives_self _, rfl⟩) (fun _ => rfl) fun st shows => ?_
  have types := Source.Expr.check_types shows e
  constructor
  · constructor
    · intro silent
      exact ⟨_, (types _).1 ⟨silent, rfl⟩⟩
    · rintro ⟨ty, typed⟩
      exact ((types ty).2 typed).1
  · rintro ⟨ty, typed⟩
    obtain ⟨silent, rfl⟩ := (types ty).2 typed
    exact ⟨typed.ne_any shows.proper, fun ty => (and_iff_right silent).symm.trans (types ty)⟩

/-- An expression that has to have a type. -/
theorem decides_expected {β : Type} {e : Source.Expr} {ty : Ty} (proper : ty ≠ .any)
    (d : Typed.Expr → Diagnostic) {f : Typed.Expr → Check β} [∀ t, (f t).Steady] {ok : Prop}
    {declared : List (String × Ty)} {promised : β → Prop} (h : ∀ t, Decides (f t) ctx ok declared promised) :
    Decides (do let t ← expr e; reportUnless (t.ty.agrees ty) (d t); f t) ctx (e.HasTy ctx ty ∧ ok)
      declared promised := by
  refine ((decides_expr e).before fun t ⟨typed, types⟩ =>
    (decides_reportUnless.congr ((Ty.agrees_iff typed proper).trans (types ty))).before fun _ _ => h t).congr ?_
  exact ⟨fun both => both.2, fun both => ⟨⟨ty, both.1⟩, both⟩⟩

theorem decides_condition (construct : String) (e : Source.Expr) :
    Decides (condition construct e) ctx (e.HasTy ctx .boolean) [] fun _ => True :=
  (decides_expected (by decide : Ty.boolean ≠ .any) (fun t => .badCondition t.line construct t.ty)
    fun _ => .pure trivial).congr (and_iff_left trivial)

theorem decides_initializer {ty : Ty} (proper : ty ≠ .any) (e : Source.Expr) :
    Decides (initializer ty e) ctx (e.HasTy ctx ty) [] fun _ => True := by
  rw [initializer_eq]
  exact (decides_expected proper (fun t => .mismatch t.line t.ty ty) fun _ => .pure trivial).congr
    (and_iff_left trivial)

theorem decides_optional {check : Source.Expr → Check Typed.Expr} [∀ e, (check e).Steady]
    {ok : Source.Expr → Prop}
    (h : ∀ e, Decides (check e) ctx (ok e) [] fun _ => True) (e : Option Source.Expr) :
    Decides (optional check e) ctx (∀ e' ∈ e, ok e') [] fun _ => True := by
  cases e with
  | none => exact (Decides.pure trivial).congr ⟨fun _ _ => nofun, fun _ => trivial⟩
  | some e =>
    refine ((h e).map some fun _ _ => trivial).congr ⟨fun holds e' same => ?_, fun holds => holds e rfl⟩
    cases same
    exact holds

theorem run_get_bind {β : Type} (f : CheckState → Check β) (st : CheckState) :
    (get >>= f).run st = (f st).run st := rfl

/-- A declaration adds its local. -/
theorem decides_declare {line : Line} {name : String} {ty : Ty} (proper : ty ≠ .any)
    (init : Option Source.Expr) :
    Decides (declare line name ty init) ctx (∀ e ∈ init, e.HasTy ctx ty) [(name, ty)] fun _ => True := by
  refine ((decides_optional (decides_initializer proper) init).before fun init _ => ?_).congr
    (and_iff_left trivial)
  intro st own outer tracks
  simp only [run_get_bind, List.map_singleton, true_and]
  cases declared : st.names.declare? name ty with
  | none =>
    have clash := tracks.declare?_eq_none_iff.1 declared
    exact ⟨⟨fun silent => absurd silent (List.cons_ne_nil _ _), fun apart => absurd apart clash⟩,
      fun _ apart => absurd apart clash⟩
  | some result =>
    have after := tracks.declare declared proper
    exact ⟨⟨fun _ => after.apart, fun _ => rfl⟩, fun _ _ => after⟩

theorem decides_report (d : Diagnostic) : Decides (report d) ctx False [] fun _ => True :=
  decides_lift ⟨⟨fun silent => absurd silent (List.cons_ne_nil _ _), False.elim⟩, False.elim⟩

/-- A `return` has to fit the declared result. -/
theorem decides_return {returns : Option Ty} (proper : returns ≠ some .any) (line : Line)
    (value : Option Source.Expr) (around : List Construct) :
    Decides (do
      let value ← optional expr value
      result line returns value
      return Typed.Stmt.ret line value) ctx ((Source.Stmt.ret line value).Valid returns around ctx) []
      fun _ => True := by
  cases value with
  | none =>
    simp only [optional, pure_bind, Source.Stmt.Valid]
    cases returns with
    | none =>
      simp only [result, pure_bind]
      exact .pure trivial
    | some ty =>
      refine ((decides_report (.missingReturn line ty)).map (fun _ => Typed.Stmt.ret line none)
        fun _ _ => trivial).congr ⟨False.elim, fun same => nomatch same⟩
  | some e =>
    simp only [optional, bind_assoc, pure_bind, Source.Stmt.Valid]
    cases returns with
    | none =>
      refine ((decides_expr e).before fun t _ =>
        (decides_report (.needlessReturn line)).map (fun _ => Typed.Stmt.ret line (some t))
          fun _ _ => trivial).congr ?_
      exact ⟨fun both => both.2.elim, fun ⟨_, same, _⟩ => nomatch same⟩
    | some ty =>
      have typed : ty ≠ .any := fun same => proper (congrArg some same)
      refine (decides_expected typed (fun t => .badReturn line t.ty ty) fun t => .pure trivial).congr ?_
      constructor
      · rintro ⟨typed, -⟩
        exact ⟨ty, rfl, typed⟩
      · rintro ⟨_, same, typed⟩
        cases same
        exact ⟨typed, trivial⟩

end Check

end Stacklet
