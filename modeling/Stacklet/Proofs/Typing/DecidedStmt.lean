import Stacklet.Proofs.Typing.Decides

/-!
# The check decides the rules for statements

The check of a statement reports nothing exactly if the rules make the statement valid (`check_decides`).
What it has seen of the labels of a switch tells whether a further one clashes with them
(`checkAll_decides`).
-/

namespace Stacklet

/-! ## The labels of a switch -/

namespace Source

theorem Expr.intConstant?_eq_some_iff {e : Expr} {v : Int32} : e.intConstant? = some v ↔ e.IsConstant v := by
  constructor
  · intro h
    unfold intConstant? at h
    split at h
    · cases h
      exact .literal
    · cases h
      exact .negated
    · cases h
  · intro h
    cases h <;> rfl

theorem Expr.IsConstant.unique {e : Expr} {v w : Int32} (h : e.IsConstant v) (h' : e.IsConstant w) : v = w :=
  Option.some.inj ((intConstant?_eq_some_iff.2 h).symm.trans (intConstant?_eq_some_iff.2 h'))

namespace CaseLabel

variable {labels more : List CaseLabel} {label : CaseLabel}

theorem allDistinct_snoc :
    AllDistinct (labels ++ [label]) ↔ AllDistinct labels ∧ (∀ e, label = .case e → ∃ v, e.IsConstant v) ∧
      ∀ earlier ∈ labels, ¬earlier.Clashes label := by
  unfold AllDistinct
  simp only [List.mem_append, List.mem_singleton, List.pairwise_append, List.pairwise_singleton, true_and,
    forall_eq]
  constructor
  · rintro ⟨constant, apart, last⟩
    exact ⟨⟨fun e mem => constant e (.inl mem), apart⟩, fun e same => constant e (.inr same.symm), last⟩
  · rintro ⟨⟨constant, apart⟩, lastConstant, last⟩
    refine ⟨?_, apart, last⟩
    rintro e (mem | same)
    · exact constant e mem
    · exact lastConstant e same.symm

theorem AllDistinct.of_append (h : AllDistinct (labels ++ more)) : AllDistinct labels :=
  ⟨fun e mem => h.1 e (List.mem_append_left _ mem), (List.pairwise_append.1 h.2).1⟩

end CaseLabel

end Source

/-- What was seen of labels that are distinct. -/
structure LabelsSeen.Tracks (seen : LabelsSeen) (labels : List Source.CaseLabel) : Prop where
  values : ∀ v, v ∈ seen.cases ↔ ∃ e, .case e ∈ labels ∧ e.IsConstant v
  default : seen.hasDefault = true ↔ .otherwise ∈ labels
  distinct : Source.CaseLabel.AllDistinct labels

namespace LabelsSeen.Tracks

open Source Source.CaseLabel

variable {seen : LabelsSeen} {labels : List CaseLabel} {e : Expr} {v : Int32}

/-- A constant may follow if its value was not seen. -/
theorem allDistinct_case_iff (h : seen.Tracks labels) (constant : e.IsConstant v) :
    AllDistinct (labels ++ [.case e]) ↔ v ∉ seen.cases := by
  have clashes : (∀ earlier ∈ labels, ¬earlier.Clashes (.case e)) ↔ v ∉ seen.cases := by
    rw [h.values]
    constructor
    · rintro apart ⟨e', mem, same⟩
      exact apart (.case e') mem ⟨v, same, constant⟩
    · rintro fresh (e' | _) mem clash
      · obtain ⟨w, hw, hw'⟩ := clash
        exact fresh ⟨e', mem, hw'.unique constant ▸ hw⟩
      · cases clash
  have constants : ∀ e', CaseLabel.case e = .case e' → ∃ w, e'.IsConstant w := by
    rintro _ ⟨⟩
    exact ⟨v, constant⟩
  rw [allDistinct_snoc, clashes]
  exact ⟨fun both => both.2.2, fun fresh => ⟨h.distinct, constants, fresh⟩⟩

theorem case (h : seen.Tracks labels) (constant : e.IsConstant v)
    (distinct : AllDistinct (labels ++ [.case e])) :
    Tracks { seen with cases := v :: seen.cases } (labels ++ [.case e]) where
  values w := by
    rw [List.mem_cons, h.values]
    constructor
    · rintro (rfl | ⟨e', mem, hw⟩)
      · exact ⟨e, List.mem_append_right _ (List.mem_singleton.2 rfl), constant⟩
      · exact ⟨e', List.mem_append_left _ mem, hw⟩
    · rintro ⟨e', mem, hw⟩
      rcases List.mem_append.1 mem with mem | last
      · exact .inr ⟨e', mem, hw⟩
      · cases List.mem_singleton.1 last
        exact .inl (hw.unique constant)
  default := by
    rw [h.default, List.mem_append, List.mem_singleton]
    exact (or_iff_left nofun).symm
  distinct := distinct

theorem nothing : LabelsSeen.none.Tracks [] :=
  ⟨fun _ => ⟨nofun, fun ⟨_, mem, _⟩ => nomatch mem⟩, ⟨nofun, nofun⟩, nofun, .nil⟩

/-- The default may follow if it was not seen. -/
theorem allDistinct_otherwise_iff (h : seen.Tracks labels) :
    AllDistinct (labels ++ [.otherwise]) ↔ seen.hasDefault = false := by
  have clashes : (∀ earlier ∈ labels, ¬earlier.Clashes .otherwise) ↔ .otherwise ∉ labels := by
    constructor
    · intro apart mem
      exact apart .otherwise mem trivial
    · rintro fresh (e | _) mem clash
      · cases clash
      · exact fresh mem
  rw [allDistinct_snoc, clashes, ← Bool.not_eq_true, h.default]
  exact ⟨fun both => both.2.2, fun fresh => ⟨h.distinct, nofun, fresh⟩⟩

theorem otherwise (h : seen.Tracks labels) (distinct : AllDistinct (labels ++ [.otherwise])) :
    Tracks { seen with hasDefault := true } (labels ++ [.otherwise]) where
  values w := by
    rw [h.values]
    constructor
    · rintro ⟨e, mem, hw⟩
      exact ⟨e, List.mem_append_left _ mem, hw⟩
    · rintro ⟨e, mem, hw⟩
      rcases List.mem_append.1 mem with mem | last
      · exact ⟨e, mem, hw⟩
      · cases List.mem_singleton.1 last
  default := ⟨fun _ => List.mem_append_right _ (List.mem_singleton.2 rfl), fun _ => rfl⟩
  distinct := distinct

end LabelsSeen.Tracks

/-- The check of labels decides whether they are distinct, together with those before them. -/
theorem Source.CaseLabel.checkAll_decides {line : Line} {seen : LabelsSeen} {before : List CaseLabel}
    (h : seen.Tracks before) (labels : List CaseLabel) :
    ((checkAll line seen labels).reports = [] ↔ AllDistinct (before ++ labels)) ∧
    (AllDistinct (before ++ labels) → (checkAll line seen labels).value.2.Tracks (before ++ labels)) := by
  induction labels generalizing seen before with
  | nil =>
    rw [List.append_nil]
    exact ⟨⟨fun _ => h.distinct, fun _ => rfl⟩, fun _ => h⟩
  | cons label labels ih =>
    have shift : before ++ label :: labels = (before ++ [label]) ++ labels := by
      rw [List.append_assoc, List.singleton_append]
    rw [shift]
    -- A label that clashes is reported before the remaining ones.
    have rejects {r : Reporting (List Typed.CaseLabel × LabelsSeen)} (reported : r.reports ≠ [])
        (clash : ¬AllDistinct (before ++ [label])) :
        (r.reports = [] ↔ AllDistinct (before ++ [label] ++ labels)) ∧
        (AllDistinct (before ++ [label] ++ labels) → r.value.2.Tracks (before ++ [label] ++ labels)) :=
      ⟨⟨fun silent => absurd silent reported, fun distinct => absurd distinct.of_append clash⟩,
        fun distinct => absurd distinct.of_append clash⟩
    cases label with
    | case e =>
      cases found : e.intConstant? with
      | none =>
        refine rejects (by rw [reports_checkAll_variable found]; exact List.cons_ne_nil _ _) fun distinct => ?_
        obtain ⟨v, constant⟩ := distinct.1 e (List.mem_append_right _ (List.mem_singleton.2 rfl))
        rw [Expr.intConstant?_eq_some_iff.2 constant] at found
        cases found
      | some v =>
        have constant := Expr.intConstant?_eq_some_iff.1 found
        have distinct := h.allDistinct_case_iff constant
        rw [← List.contains_iff_mem] at distinct
        cases taken : seen.cases.contains v with
        | true =>
          rw [taken] at distinct
          refine rejects ?_ fun clash => distinct.1 clash rfl
          rw [reports_checkAll_case found, taken]
          exact List.cons_ne_nil _ _
        | false =>
          rw [taken] at distinct
          rw [reports_checkAll_case found, value_checkAll_case found, taken]
          exact ih (h.case constant (distinct.2 Bool.false_ne_true))
    | otherwise =>
      have distinct := h.allDistinct_otherwise_iff
      cases taken : seen.hasDefault with
      | true =>
        rw [taken] at distinct
        refine rejects ?_ fun clash => Bool.false_ne_true (distinct.1 clash).symm
        rw [reports_checkAll_otherwise, taken]
        exact List.cons_ne_nil _ _
      | false =>
        rw [reports_checkAll_otherwise, value_checkAll_otherwise, taken]
        exact ih (h.otherwise (distinct.2 taken))

/-! ## Statements -/

/-- The constructs around a statement. -/
def Surroundings.around (env : Surroundings) : List Construct := env.jumps.map (·.construct)

theorem Surroundings.isSome_breakTarget? (env : Surroundings) :
    env.jumps.breakTarget?.isSome ↔ env.around ≠ [] := by
  unfold JumpScope.breakTarget? around
  cases env.jumps with
  | nil => exact ⟨nofun, fun h => absurd rfl h⟩
  | cons e rest => exact ⟨fun _ => List.cons_ne_nil _ _, fun _ => rfl⟩

theorem Surroundings.isSome_continueTarget? (env : Surroundings) :
    env.jumps.continueTarget?.isSome ↔ .loop ∈ env.around := by
  unfold JumpScope.continueTarget? around
  rw [Option.isSome_map, List.find?_isSome, List.mem_map]
  simp only [beq_iff_eq]

namespace Source.Stmt

open Check

mutual

/-- The check of a statement decides whether it is valid. -/
theorem check_decides (env : Surroundings) (returns : env.returns ≠ some .any) (s : Stmt)
    (types : ∀ d ∈ s.locals, d.2 ≠ .any) (ctx : Context) :
    Decides (s.check env) ctx (s.Valid env.returns env.around ctx) s.declares fun _ => True := by
  match s with
  | .block line body =>
    exact (checkAll_decides env returns body types ctx).inScope.map _ fun _ _ => trivial
  | .declare line name ty init => exact decides_declare (types _ List.mem_cons_self) init
  | .expr line e =>
    exact (decides_reportUnless.congr Expr.isEffect_iff).before fun _ _ =>
      (decides_expr e).map _ fun _ _ => trivial
  | .ifElse line c t none =>
    exact (decides_condition "if" c).before fun _ _ =>
      (check_decides env returns t types ctx).inScope.map _ fun _ _ => trivial
  | .ifElse line c t (some e) =>
    have left := check_decides env returns t (fun d mem => types d (List.mem_append_left _ mem)) ctx
    have right := check_decides env returns e (fun d mem => types d (List.mem_append_right _ mem)) ctx
    exact (decides_condition "if" c).before fun _ _ => left.inScope.before fun _ _ =>
      right.inScope.map _ fun _ _ => trivial
  | .whileDo line c body =>
    have inner (target : Target) : Decides (body.check (env.enter .loop target)) ctx
        (body.Valid env.returns (.loop :: env.around) ctx) body.declares fun _ => True :=
      check_decides (env.enter .loop target) returns body types ctx
    exact (decides_condition "while" c).before fun _ _ => decides_freshTarget fun target =>
      (inner target).inScope.map _ fun _ _ => trivial
  | .doWhile line body c =>
    have inner (target : Target) : Decides (body.check (env.enter .loop target)) ctx
        (body.Valid env.returns (.loop :: env.around) ctx) body.declares fun _ => True :=
      check_decides (env.enter .loop target) returns body types ctx
    exact decides_freshTarget fun target => (inner target).inScope.before fun _ _ =>
      (decides_condition "do" c).map _ fun _ _ => trivial
  | .forLoop line init c update none =>
    have start := checkAll_decides env returns init (fun d mem => types d (List.mem_append_left _ mem)) ctx
    have next (target : Target) : Decides (checkAll (env.enter .loop target) update)
        (ctx.extend (allDeclares init))
        (AllValid env.returns (.loop :: env.around) (ctx.extend (allDeclares init)) update)
        (allDeclares update) fun _ => True :=
      checkAll_decides (env.enter .loop target) returns update
        (fun d mem => types d (List.mem_append_right _ mem)) _
    refine (start.bind fun _ _ => (decides_optional (decides_condition "for") c).before fun _ _ =>
      decides_freshTarget fun target => (next target).map _ fun _ _ => trivial).inScope.congr ?_
    simp only [Valid, and_assoc]
  | .forLoop line init c update (some body) =>
    have start := checkAll_decides env returns init (fun d mem => types d (List.mem_append_left _ mem)) ctx
    have next (target : Target) : Decides (checkAll (env.enter .loop target) update)
        (ctx.extend (allDeclares init))
        (AllValid env.returns (.loop :: env.around) (ctx.extend (allDeclares init)) update)
        (allDeclares update) fun _ => True :=
      checkAll_decides (env.enter .loop target) returns update
        (fun d mem => types d (List.mem_append_right _ (List.mem_append_left _ mem))) _
    have inner (target : Target) : Decides (body.check (env.enter .loop target))
        ((ctx.extend (allDeclares init)).extend (allDeclares update))
        (body.Valid env.returns (.loop :: env.around)
          ((ctx.extend (allDeclares init)).extend (allDeclares update))) body.declares fun _ => True :=
      check_decides (env.enter .loop target) returns body
        (fun d mem => types d (List.mem_append_right _ (List.mem_append_right _ mem))) _
    refine (start.bind fun _ _ => (decides_optional (decides_condition "for") c).before fun _ _ =>
      decides_freshTarget fun target => (next target).bind fun _ _ =>
        (inner target).inScope.map _ fun _ _ => trivial).inScope.congr ?_
    simp only [Valid, List.append_nil, Context.extend_extend]
    constructor
    · rintro ⟨⟨init, c, update, body⟩, apart⟩
      exact ⟨init, c, update, apart, body⟩
    · rintro ⟨init, c, update, apart, body⟩
      exact ⟨⟨init, c, update, body⟩, apart⟩
  | .switch line d groups =>
    have inner (target : Target) : Decides (checkGroups (env.enter .switch target) line .none groups) ctx
        (GroupsValid env.returns (.switch :: env.around) ctx groups ∧
          CaseLabel.AllDistinct (groups.flatMap (·.labels))) (groupDeclares groups) fun _ => True :=
      checkGroups_decides (env.enter .switch target) returns line .nothing groups types ctx
    exact decides_expected (by decide : Ty.int ≠ .any) (fun t => .badDiscriminant line t.ty) fun t =>
      decides_freshTarget fun target => (inner target).map _ fun _ _ => trivial
  | .breakOut line =>
    exact (decides_reportUnless.congr env.isSome_breakTarget?).map _ fun _ _ => trivial
  | .continueLoop line =>
    exact (decides_reportUnless.congr env.isSome_continueTarget?).map _ fun _ _ => trivial
  | .ret line value => exact decides_return returns line value _
  | .empty line => exact .pure trivial
termination_by structural s

/-- The check of statements decides whether they are valid. -/
theorem checkAll_decides (env : Surroundings) (returns : env.returns ≠ some .any) (ss : List Stmt)
    (types : ∀ d ∈ allLocals ss, d.2 ≠ .any) (ctx : Context) :
    Decides (checkAll env ss) ctx (AllValid env.returns env.around ctx ss) (allDeclares ss) fun _ => True := by
  match ss with
  | [] => exact .pure trivial
  | s :: rest =>
    have first := check_decides env returns s (fun d mem => types d (List.mem_append_left _ mem)) ctx
    have others := checkAll_decides env returns rest (fun d mem => types d (List.mem_append_right _ mem))
      (ctx.extend s.declares)
    exact first.bind fun _ _ => others.map _ fun _ _ => trivial
termination_by structural ss

/-- The check of the groups of a switch decides whether they are valid, and whether their labels are
distinct together with those before them. -/
theorem checkGroups_decides (env : Surroundings) (returns : env.returns ≠ some .any) (line : Line)
    {seen : LabelsSeen} {before : List CaseLabel} (tracks : seen.Tracks before)
    (groups : List (SwitchGroup CaseLabel Stmt)) (types : ∀ d ∈ groupLocals groups, d.2 ≠ .any)
    (ctx : Context) :
    Decides (checkGroups env line seen groups) ctx
      (GroupsValid env.returns env.around ctx groups ∧
        CaseLabel.AllDistinct (before ++ groups.flatMap (·.labels))) (groupDeclares groups)
      fun _ => True := by
  match groups with
  | [] =>
    refine (Decides.pure trivial).congr ⟨fun _ => ⟨trivial, ?_⟩, fun _ => trivial⟩
    rw [List.flatMap_nil, List.append_nil]
    exact tracks.distinct
  | ⟨labels, stmts⟩ :: rest =>
    have decided : ((CaseLabel.checkAll line seen labels).reports = [] ↔ _) ∧ _ :=
      CaseLabel.checkAll_decides tracks labels
    have labelled : Decides (StateT.lift (CaseLabel.checkAll line seen labels)) ctx
        (CaseLabel.AllDistinct (before ++ labels)) [] fun result => result.2.Tracks (before ++ labels) :=
      decides_lift decided
    have block := checkAll_decides env returns stmts (fun d mem => types d (List.mem_append_left _ mem)) ctx
    refine (labelled.before fun result tracks' => block.bind fun _ _ =>
      (checkGroups_decides env returns line tracks' rest
        (fun d mem => types d (List.mem_append_right _ mem)) _).map _ fun _ _ => trivial).congr ?_
    rw [List.flatMap_cons, ← List.append_assoc]
    constructor
    · rintro ⟨-, stmts, rest, distinct⟩
      exact ⟨⟨stmts, rest⟩, distinct⟩
    · rintro ⟨⟨stmts, rest⟩, distinct⟩
      exact ⟨distinct.of_append, stmts, rest, distinct⟩
termination_by structural groups

end

end Source.Stmt

end Stacklet
