import Stacklet.Proofs.Typing.Steady

/-!
# Unknown names in expressions

An expression that fails the check has the type `any`, which every operator around it takes without another report.
So an unknown name in the place of any part of an expression without mistakes is reported once: the operators around
it (`Expr.Layer`) go on as before, with its type or with `any` (`Typed.Expr.Blurs`).
-/

namespace Stacklet

/-- A typed expression that has the type of another one, or the type `any` of those that fail the check. -/
def Typed.Expr.Blurs (e' e : Typed.Expr) : Prop := e'.ty = .any ∨ e'.ty = e.ty

namespace Reporting

/-- What comes of the check of an expression when there is one mistake in it: its report, and at most the type is
given up. -/
structure Marred (d : Diagnostic) (x' x : Reporting Typed.Expr) : Prop where
  reports : x'.reports = [d]
  blurs : x'.value.Blurs x.value

/-- A check that reports nothing more of an expression if its type is given up. -/
def Lenient (f : Typed.Expr → Reporting Typed.Expr) : Prop :=
  ∀ ⦃e' e⦄, e'.Blurs e → (f e).reports = [] → (f e').reports = [] ∧ (f e').value.Blurs (f e).value

variable {d : Diagnostic} {α : Type}

/-- A mistake in the part that is checked first. -/
theorem marred_bind {x' x : Reporting Typed.Expr} {f : Typed.Expr → Reporting Typed.Expr} [x'.Steady] [x.Steady]
    [∀ e, (f e).Steady]
    (marred : x.reports = [] → x'.Marred d x) (lenient : Lenient f) (silent : (x >>= f).reports = []) :
    (x' >>= f).Marred d (x >>= f) := by
  rw [reports_bind, List.append_eq_nil_iff] at silent
  have first := marred silent.1
  have rest := lenient first.blurs silent.2
  refine ⟨?_, ?_⟩
  · rw [reports_bind, first.reports, rest.1, List.append_nil]
  · rw [value_bind, value_bind]
    exact rest.2

/-- A mistake that leaves nothing but an expression that fails the check. -/
theorem marred_of_gives {x : Reporting α} {f : α → Reporting Typed.Expr} [x.Steady] [∀ a, (f a).Steady] {a : α}
    {y : Reporting Typed.Expr} (given : x.Gives a [d]) (silent : (f a).reports = []) (fails : (f a).value.ty = .any) :
    (x >>= f).Marred d y := by
  refine ⟨?_, .inl ?_⟩
  · rw [reports_bind, given.value, given.reports, silent, List.append_nil]
  · rw [value_bind, given.value, fails]

/-- A mistake in the part that is checked behind another one. -/
theorem marred_behind {x : Reporting α} {f' f : α → Reporting Typed.Expr} [x.Steady] [∀ a, (f' a).Steady]
    [∀ a, (f a).Steady]
    (marred : (f x.value).reports = [] → (f' x.value).Marred d (f x.value)) (silent : (x >>= f).reports = []) :
    (x >>= f').Marred d (x >>= f) := by
  rw [reports_bind, List.append_eq_nil_iff] at silent
  have rest := marred silent.2
  refine ⟨?_, ?_⟩
  · rw [reports_bind, silent.1, rest.reports, List.nil_append]
  · rw [value_bind, value_bind]
    exact rest.blurs

end Reporting

namespace Typed.Expr

open Reporting

variable {line : Line}

theorem Blurs.refl (e : Expr) : e.Blurs e := .inr rfl

/-- Where a type is expected, `any` will do. -/
theorem Blurs.agrees {e' e : Expr} (h : e'.Blurs e) {ty : Ty} (fits : e.ty.agrees ty = true) :
    e'.ty.agrees ty = true := by
  rcases h with any | same
  · simp [any, Ty.agrees]
  · rw [same]
    exact fits

theorem lenient_checkNegate : Lenient (checkNegate line) := by
  intro e' e h silent
  unfold checkNegate at silent ⊢
  rcases h with any | same
  · rw [if_pos any]
    exact ⟨rfl, .inl rfl⟩
  · rw [same]
    by_cases any : e.ty = .any
    · rw [if_pos any]
      exact ⟨rfl, .inl rfl⟩
    · simp only [if_neg any] at silent ⊢
      split at silent
      · exact ⟨rfl, .inr rfl⟩
      · cases silent

theorem lenient_checkNot : Lenient (checkNot line) := by
  intro e' e h silent
  unfold checkNot at silent ⊢
  rcases h with any | same
  · rw [any]
    exact ⟨rfl, .inl rfl⟩
  · rw [same]
    split at silent
    · exact ⟨rfl, .inr rfl⟩
    · exact ⟨rfl, .inl rfl⟩
    · cases silent

/-- An operator gives up if one of its operands has no type. -/
theorem checkBinary_lenient {op : BinaryOp} {l' l r' r : Expr} (hl : l'.Blurs l) (hr : r'.Blurs r)
    (silent : (checkBinary line op l r).reports = []) :
    (checkBinary line op l' r').reports = [] ∧
      (checkBinary line op l' r').value.Blurs (checkBinary line op l r).value := by
  unfold checkBinary at silent ⊢
  by_cases any : l'.ty = .any ∨ r'.ty = .any
  · rw [if_pos any]
    exact ⟨rfl, .inl rfl⟩
  · have sameL : l'.ty = l.ty := hl.resolve_left fun h => any (.inl h)
    have sameR : r'.ty = r.ty := hr.resolve_left fun h => any (.inr h)
    rw [sameL, sameR] at any ⊢
    simp only [if_neg any] at silent ⊢
    split at silent
    · exact ⟨rfl, .inr rfl⟩
    · cases silent

theorem lenient_left {op : BinaryOp} {rhs : Reporting Expr} [rhs.Steady] :
    Lenient fun l => rhs >>= checkBinary line op l := by
  intro e' e h silent
  rw [reports_bind, List.append_eq_nil_iff] at silent
  have result := checkBinary_lenient h (.refl _) silent.2
  refine ⟨?_, ?_⟩
  · rw [reports_bind, silent.1, result.1, List.nil_append]
  · rw [value_bind, value_bind]
    exact result.2

theorem lenient_right {op : BinaryOp} {l : Expr} : Lenient (checkBinary line op l) :=
  fun _ _ h silent => checkBinary_lenient (.refl l) h silent

theorem lenient_checkAssign {p : Place} : Lenient (checkAssign line p) := by
  intro e' e h silent
  rw [checkAssign_eq] at silent
  rw [checkAssign_eq, checkAssign_eq]
  by_cases fits : e.ty.agrees p.ty = true
  · rw [if_pos fits, if_pos (h.agrees fits)]
    exact ⟨rfl, .inr rfl⟩
  · rw [if_neg fits] at silent
    cases silent

end Typed.Expr

namespace Source.Expr

open Reporting

/-- One operator around a part of an expression, with its other operand. -/
inductive Layer where
  | unary (line : Line) (op : UnaryOp)
  | step (line : Line) (op : StepOp)
  | left (line : Line) (op : BinaryOp) (rhs : Expr)
  | right (line : Line) (op : BinaryOp) (lhs : Expr)
  | assignee (line : Line) (value : Expr)
  | assigned (line : Line) (target : Expr)

/-- An expression under one operator. -/
def Layer.around (e : Expr) : Layer → Expr
  | .unary line op => .unary line op e
  | .step line op => .step line op e
  | .left line op rhs => .binary line op e rhs
  | .right line op lhs => .binary line op lhs e
  | .assignee line value => .assign line e value
  | .assigned line target => .assign line target e

/-- An expression under operators, the outermost first. -/
def fill (e : Expr) : List Layer → Expr
  | [] => e
  | layer :: layers => layer.around (e.fill layers)

/-- Whether an expression has an effect is up to its outermost operator. -/
theorem isEffect_fill (e e' : Expr) (layer : Layer) (layers : List Layer) :
    (e.fill (layer :: layers)).isEffect = (e'.fill (layer :: layers)).isEffect := by
  cases layer <;> rfl

variable {names : Names} {line : Line} {name : String} {e : Expr}

theorem resolveName_unknown (unknown : names.lookup? name = none) :
    (resolveName names line name).Gives none [.unknownName line name] := by
  rw [resolveName, unknown]
  exact ⟨rfl, rfl⟩

/-- An operand that is a place is a name without operators around it. -/
theorem resolvePlace_fill (unknown : names.lookup? name = none) {role : String} {layers : List Layer}
    {checked checked' : Reporting Typed.Expr} [checked.Steady] [checked'.Steady]
    (silent : (resolvePlace names role (e.fill layers) checked).reports = []) :
    (resolvePlace names role (fill (.var line name) layers) checked').Gives none [.unknownName line name] := by
  cases layers with
  | nil => exact resolveName_unknown unknown
  | cons layer layers =>
    cases layer <;>
      (simp only [fill, Layer.around, resolvePlace, reports_bind, List.append_eq_nil_iff] at silent
       cases silent.2.1)

/-- An unknown name in the place of a part of an expression without mistakes. -/
theorem check_fill (unknown : names.lookup? name = none) (line : Line) {layers : List Layer}
    (silent : ((e.fill layers).check names).reports = []) :
    ((fill (.var line name) layers).check names).Marred (.unknownName line name) ((e.fill layers).check names) := by
  induction layers with
  | nil =>
    simp only [fill, check]
    exact marred_of_gives (resolveName_unknown unknown) rfl rfl
  | cons layer layers ih =>
    cases layer with
    | unary line op =>
      cases op with
      | negate => exact marred_bind ih Typed.Expr.lenient_checkNegate silent
      | not => exact marred_bind ih Typed.Expr.lenient_checkNot silent
    | step line op =>
      simp only [fill, Layer.around, check, reports_bind, List.append_eq_nil_iff] at silent
      exact marred_of_gives (resolvePlace_fill unknown silent.1) rfl rfl
    | left line op rhs => exact marred_bind ih Typed.Expr.lenient_left silent
    | right line op lhs => exact marred_behind (marred_bind ih Typed.Expr.lenient_right) silent
    | assignee line value =>
      simp only [fill, Layer.around, check, reports_bind, List.append_eq_nil_iff] at silent
      refine marred_of_gives (resolvePlace_fill unknown silent.1) ?_ ?_
      · rw [reports_bind, silent.2.1]
        rfl
      · rw [value_bind]
        rfl
    | assigned line target =>
      refine marred_behind (marred_bind ih ?_) silent
      cases (resolvePlace names "Assignment target" target (check names target)).value with
      | none => exact fun _ _ _ _ => ⟨rfl, .inl rfl⟩
      | some p => exact Typed.Expr.lenient_checkAssign

end Source.Expr

end Stacklet
