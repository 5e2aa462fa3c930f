import Stacklet.Proofs.Lowering.Expr
import Stacklet.Proofs.Typing.Limit

/-!
# Where lowering meets failed expressions

Lowering stops at the first error node that it meets, and says on which line. It stops for no other reason
with such an error (`Stmt.blames`): a program that does not compile for an expression that failed the check
has an error node on the line of the message (`compile_failedCheck`).
-/

namespace Stacklet

open Typed (Expr Stmt CaseLabel)

namespace Lower

/-- A step that meets no error nodes but on some lines. -/
def Blames {α : Type} (blamed : Line → Prop) (x : Lower α) : Prop :=
  ∀ (s : LowerState) (line : Line), (x s).result = .error (.failedCheck line) → blamed line

namespace Blames

variable {α β : Type} {blamed : Line → Prop}

/-- A step that does not fail. -/
theorem ofOk {x : Lower α} (h : ∀ s, ∃ a, (x s).result = .ok a) : Blames blamed x := by
  intro s line failed
  obtain ⟨a, done⟩ := h s
  rw [done] at failed
  cases failed

theorem pure (a : α) : Blames blamed (pure a) := ofOk fun _ => ⟨a, rfl⟩

theorem emit {call : Call} : Blames blamed (emit call) := ofOk fun _ => ⟨(), rfl⟩

theorem label : Blames blamed label := ofOk fun s => ⟨⟨s.labels⟩, rfl⟩

theorem register {target : Target} {ex : Exits} : Blames blamed (register target ex) := ofOk fun _ => ⟨(), rfl⟩

theorem ofScript {x : Lower Unit} (h : IsScript x) : Blames blamed x :=
  ofOk fun s => ⟨(), congrArg Lowered.result (h s)⟩

/-- A step that fails for a reason of its own. -/
theorem fail {e : LowerError} (h : ∀ line, e = .failedCheck line → blamed line) :
    Blames blamed (fail e : Lower α) :=
  fun _ line failed => h line (Except.error.inj failed)

theorem exits {target : Target} : Blames blamed (exits target) := by
  intro s line failed
  unfold Lower.exits at failed
  split at failed <;> cases failed

theorem bind {x : Lower α} {f : α → Lower β} (first : Blames blamed x) (second : ∀ a, Blames blamed (f a)) :
    Blames blamed (x >>= f) := by
  intro s line failed
  simp only [Bind.bind] at failed
  split at failed
  · next e stopped =>
    rw [Except.error.inj failed] at stopped
    exact first s line stopped
  · next a _ => exact second a _ line failed

theorem placeAll (ls : List Label) : Blames blamed (placeAll ls) := by
  induction ls with
  | nil => exact pure ()
  | cons l ls ih => exact emit.bind fun _ => ih

end Blames

end Lower

open Lower

variable {blamed : Line → Prop}

/-! ## Expressions -/

namespace Typed.Expr

theorem numericKind_blames (line : Line) (ty : Ty) : Blames blamed (numericKind line ty) := by
  unfold numericKind
  split
  · exact .pure _
  · exact .fail fun _ other => by cases other

theorem lowerStep_blames (op : StepOp) (p : Place) (wanted : Bool) : Blames blamed (lowerStep op p wanted) := by
  cases hk : p.ty.kind? with
  | none =>
    unfold lowerStep
    rw [hk]
    exact .fail fun _ other => by cases other
  | some kind => exact .ofScript (isScript_step hk wanted)

theorem lowerAssign_blames (p : Place) {value : Lower Unit} (h : Blames blamed value) (wanted : Bool) :
    Blames blamed (lowerAssign p value wanted) := by
  refine .bind (.ofScript p.isScript_address) fun _ => .bind h fun _ => ?_
  have store : Blames blamed p.store := .ofScript p.isScript_store
  cases wanted with
  | false => exact store
  | true => exact .bind (.ofScript p.isScript_keepCopy) fun _ => store

end Typed.Expr

namespace Forms

/-- Forms that meet no error nodes but on some lines. -/
structure Blame (blamed : Line → Prop) (forms : Forms) : Prop where
  value : Blames blamed forms.value
  branch : ∀ target onTrue, Blames blamed (forms.branch target onTrue)

theorem Blame.ofValue {value : Lower Unit} (h : Blames blamed value) : (Forms.ofValue value).Blame blamed where
  value := h
  branch _ _ := h.bind fun _ => .emit

theorem Blame.ofBranch {branch : Branch} (h : ∀ target onTrue, Blames blamed (branch target onTrue)) :
    (Forms.ofBranch branch).Blame blamed where
  value := .bind .label fun _ => .bind .label fun _ => .bind (h _ _) fun _ => .bind .emit fun _ =>
    .bind .emit fun _ => .bind .emit fun _ => .bind .emit fun _ => .emit
  branch := h

theorem Blame.ofBool (b : Bool) : (Forms.ofBool b).Blame blamed where
  value := .emit
  branch target onTrue := by
    change Blames blamed (if b = onTrue then goto target else pure ())
    split
    · exact .emit
    · exact .pure ()

end Forms

/-- The forms of an expression meet its error nodes only. -/
theorem Typed.Expr.forms_blame (e : Expr) (h : ∀ line ∈ e.errorLines, blamed line) : e.forms.Blame blamed := by
  induction e with
  | literal line ty v =>
    cases v with
    | bool b => exact .ofBool b
    | int | long | double => exact .ofValue .emit
  | load line ty p => exact .ofValue (.ofScript p.isScript_read)
  | negate line ty e ih =>
    exact .ofValue (.bind (numericKind_blames _ _) fun _ => .bind (ih h).value fun _ => .emit)
  | not line ty e ih => exact .ofBranch fun target onTrue => (ih h).branch target !onTrue
  | step line ty op p => exact .ofValue (lowerStep_blames op p true)
  | binary line ty op l r ihl ihr =>
    obtain ⟨left, right⟩ := List.forall_mem_append.1 h
    have lhs := ihl left
    have rhs := ihr right
    cases op with
    | arith op =>
      exact .ofValue (.bind (numericKind_blames _ _) fun _ => .bind lhs.value fun _ => .bind rhs.value fun _ =>
        .emit)
    | compare cond =>
      refine .ofBranch fun target onTrue => .bind lhs.value fun _ => .bind rhs.value fun _ => ?_
      cases l.ty.storage with
      | int => exact .emit
      | long | double => exact .bind .emit fun _ => .emit
    | logic op =>
      cases op <;> refine .ofBranch fun target onTrue => ?_ <;> cases onTrue
      case and.true | or.false =>
        exact .bind .label fun _ => .bind (lhs.branch _ _) fun _ => .bind (rhs.branch _ _) fun _ => .emit
      case and.false | or.true => exact .bind (lhs.branch _ _) fun _ => rhs.branch _ _
  | assign line ty p e ih => exact .ofValue (lowerAssign_blames p (ih h).value true)
  | error line ty =>
    refine .ofValue (.fail fun line' same => ?_)
    cases same
    exact h line List.mem_cons_self

theorem Typed.Expr.lowerEffect_blames (e : Expr) (h : ∀ line ∈ e.errorLines, blamed line) :
    Blames blamed e.lowerEffect := by
  have value : Blames blamed e.lowerValue := (e.forms_blame h).value
  cases e with
  | step line ty op p => exact lowerStep_blames op p false
  | assign line ty p e => exact lowerAssign_blames p (e.forms_blame h).value false
  | literal | load | negate | not | binary | error => exact value.bind fun _ => .emit

/-! ## Statements -/

namespace Typed

theorem planGroup_blames (d : Option Label) (labels : List CaseLabel) : Blames blamed (planGroup d labels) := by
  induction labels generalizing d with
  | nil => exact .pure _
  | cons label rest ih =>
    cases label with
    | case v => exact .bind .label fun _ => .bind (ih d) fun _ => .pure _
    | otherwise =>
      cases d with
      | none => exact .bind .label fun l => .bind (ih (some l)) fun _ => .pure _
      | some l => exact .bind (.pure l) fun l => .bind (ih (some l)) fun _ => .pure _

theorem planGroups_blames (d : Option Label) (groups : List (SwitchGroup CaseLabel Stmt)) :
    Blames blamed (planGroups d groups) := by
  induction groups generalizing d with
  | nil => exact .pure _
  | cons group rest ih => exact .bind (planGroup_blames d group.labels) fun _ => .bind (ih _) fun _ => .pure _

namespace Stmt

mutual

/-- Lowering a statement meets its error nodes only. -/
theorem blames (s : Stmt) (h : ∀ line ∈ s.errorLines, blamed line) : Blames blamed s.lower := by
  match s with
  | .block line body => exact allBlame body h
  | .declare line var none => exact .pure ()
  | .declare line var (some init) => exact .bind (init.forms_blame h).value fun _ => .emit
  | .expr line e => exact e.lowerEffect_blames h
  | .ifElse line c t none =>
    obtain ⟨hc, ht⟩ := List.forall_mem_append.1 h
    exact .bind .label fun _ => .bind ((c.forms_blame hc).branch _ _) fun _ => .bind (blames t ht) fun _ => .emit
  | .ifElse line c t (some e) =>
    simp only [errorLines, List.forall_mem_append] at h
    obtain ⟨⟨hc, ht⟩, he⟩ := h
    exact .bind .label fun _ => .bind ((c.forms_blame hc).branch _ _) fun _ => .bind (blames t ht) fun _ =>
      .bind .label fun _ => .bind .emit fun _ => .bind .emit fun _ => .bind (blames e he) fun _ => .emit
  | .whileDo line target c body =>
    obtain ⟨hc, hb⟩ := List.forall_mem_append.1 h
    exact .bind .label fun _ => .bind .label fun _ => .bind .register fun _ => .bind .emit fun _ =>
      .bind ((c.forms_blame hc).branch _ _) fun _ => .bind (blames body hb) fun _ => .bind .emit fun _ => .emit
  | .doWhile line target body c =>
    obtain ⟨hb, hc⟩ := List.forall_mem_append.1 h
    exact .bind .label fun _ => .bind .label fun _ => .bind .label fun _ => .bind .register fun _ =>
      .bind .emit fun _ => .bind (blames body hb) fun _ => .bind .emit fun _ =>
        .bind ((c.forms_blame hc).branch _ _) fun _ => .emit
  | .forLoop line target init c update body =>
    have parts : (∀ line ∈ allErrorLines init, blamed line) ∧ (∀ line ∈ optionErrorLines c, blamed line) ∧
        (∀ line ∈ allErrorLines update, blamed line) ∧
        ∀ b, body = some b → ∀ line ∈ b.errorLines, blamed line := by
      cases body with
      | none =>
        simp only [errorLines, List.forall_mem_append] at h
        exact ⟨h.1.1, h.1.2, h.2, fun _ same => by cases same⟩
      | some body =>
        simp only [errorLines, List.forall_mem_append] at h
        exact ⟨h.1.1.1, h.1.1.2, h.1.2, fun _ same => by cases same; exact h.2⟩
    obtain ⟨hi, hc, hu, hb⟩ := parts
    refine .bind (allBlame init hi) fun _ => .bind .label fun _ => .bind .label fun _ => .bind .label fun _ =>
      .bind .label fun _ => .bind .register fun _ => .bind .emit fun _ => .bind .emit fun _ =>
        .bind (optionBlames body hb) fun _ => .bind .emit fun _ => .bind (allBlame update hu) fun _ =>
          .bind .emit fun _ => ?_
    cases c with
    | none => exact .bind .emit fun _ => .emit
    | some c => exact .bind ((c.forms_blame hc).branch _ _) fun _ => .emit
  | .switch line target d groups =>
    obtain ⟨hd, hg⟩ := List.forall_mem_append.1 h
    exact .bind (d.forms_blame hd).value fun _ => .bind .label fun _ => .bind .register fun _ =>
      .bind (planGroups_blames none groups) fun plan => .bind .emit fun _ =>
        .bind (groupsBlame plan.entries groups hg) fun _ => .emit
  | .breakOut line none => exact .pure ()
  | .breakOut line (some target) => exact .bind .exits fun _ => .emit
  | .continueLoop line none => exact .pure ()
  | .continueLoop line (some target) =>
    refine .bind .exits fun ex => ?_
    split
    · exact .emit
    · exact .pure ()
  | .ret line none => exact .emit
  | .ret line (some value) => exact .bind (value.forms_blame h).value fun _ => .emit
  | .empty line => exact .pure ()

theorem allBlame (ss : List Stmt) (h : ∀ line ∈ allErrorLines ss, blamed line) : Blames blamed (lowerAll ss) := by
  match ss with
  | [] => exact .pure ()
  | s :: rest =>
    obtain ⟨hs, hr⟩ := List.forall_mem_append.1 h
    exact .bind (blames s hs) fun _ => allBlame rest hr

theorem optionBlames (s : Option Stmt) (h : ∀ b, s = some b → ∀ line ∈ b.errorLines, blamed line) :
    Blames blamed (lowerOption s) := by
  match s with
  | none => exact .pure ()
  | some s => exact blames s (h s rfl)

theorem groupsBlame (entries : List (List Label)) (groups : List (SwitchGroup CaseLabel Stmt))
    (h : ∀ line ∈ groupErrorLines groups, blamed line) : Blames blamed (lowerGroups entries groups) := by
  match groups with
  | [] => exact .pure ()
  | ⟨labels, stmts⟩ :: rest =>
    obtain ⟨hs, hr⟩ := List.forall_mem_append.1 h
    exact .bind (.placeAll _) fun _ => .bind (allBlame stmts hs) fun _ => groupsBlame entries.tail rest hr

end

end Stmt

end Typed

/-- A program that does not compile for an expression that failed the check has passed it as a whole, and has an
error node on the line of the message. -/
theorem Source.Program.compile_failedCheck {p : Source.Program} {options : Options} {line : Line}
    (h : p.compile options = .error (.lowering (.failedCheck line))) :
    (p.analyze options.maxErrors).isOk ∧ line ∈ Typed.Stmt.allErrorLines p.check.value.body := by
  simp only [compile, program_analyze] at h
  split at h
  · next accepted =>
    refine ⟨accepted, ?_⟩
    have blames : Blames (· ∈ Typed.Stmt.allErrorLines p.check.value.body) p.check.value.lower :=
      .bind (Typed.Stmt.allBlame _ fun _ => id) fun _ => .emit
    simp only [Typed.Program.compile] at h
    split at h
    · next stopped =>
      cases h
      exact blames _ line stopped
    · split at h <;> cases h
  · cases h

end Stacklet
