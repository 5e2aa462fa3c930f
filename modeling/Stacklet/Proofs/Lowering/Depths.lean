import Stacklet.Proofs.Lowering.Labels

/-!
# Depths of the stack along lowered code

`Deep level d calls ds d'` follows the depth of the stack through calls: it is `d` before them, that of
the list `ds` at each instruction, and `d'` after them, and where a label is mentioned or bound it is the
level of the label. The code of an expression leaves its value on top of what there was, and statements
start and end with an empty stack, whatever code stands around them.
-/

namespace Stacklet

/-- The number of values that a jump takes. -/
def Jump.pops : Jump → Nat
  | .goto => 0
  | .ifZero _ => 1
  | .ifCompare _ => 2

/-- The depth of the stack along calls. A return finds no more than it takes; after an instruction that does
not fall through the depth may be any. -/
inductive Deep (level : Label → Nat) : Nat → List Call → List Nat → Nat → Prop
  | nil {d} : Deep level d [] [] d
  | makeLabel {d cs ds d'} : Deep level d cs ds d' → Deep level d (.makeLabel :: cs) ds d'
  | bind {l d cs ds d'} : level l = d → Deep level d cs ds d' → Deep level d (.bind l :: cs) ds d'
  | add {i d d₁ cs ds d'} : i.pops ≤ d → i.offsets = [] →
    (i.fallsThrough = true → d₁ = d - i.pops + i.pushes) → (i.fallsThrough = false → d = i.pops) →
    Deep level d₁ cs ds d' → Deep level d (.add i :: cs) (d :: ds) d'
  | inc {slot delta d cs ds d'} : Deep level d cs ds d' → Deep level d (.inc slot delta :: cs) (d :: ds) d'
  | jump {j l d d₁ cs ds d'} : j.pops ≤ d → level l = d - j.pops → (j ≠ .goto → d₁ = d - j.pops) →
    Deep level d₁ cs ds d' → Deep level d (.jump j l :: cs) (d :: ds) d'
  | switch {keys labels other d d₁ cs ds d'} : 1 ≤ d → (∀ l ∈ other :: labels, level l = d - 1) →
    Deep level d₁ cs ds d' → Deep level d (.switch keys labels other :: cs) (d :: ds) d'

theorem Deep.append {level : Label → Nat} {d d₁ d' : Nat} {cs cs' : List Call} {ds ds' : List Nat}
    (h : Deep level d cs ds d₁) (h' : Deep level d₁ cs' ds' d') :
    Deep level d (cs ++ cs') (ds ++ ds') d' := by
  induction h with
  | nil => exact h'
  | makeLabel _ ih => exact .makeLabel (ih h')
  | bind hl _ ih => exact .bind hl (ih h')
  | add takes none falls stops _ ih => exact .add takes none falls stops (ih h')
  | inc _ ih => exact .inc (ih h')
  | jump takes hl falls _ ih => exact .jump takes hl falls (ih h')
  | switch takes hl _ ih => exact .switch takes hl (ih h')

/-- Calls that change the depth of the stack from one to another. -/
def Moves (level : Label → Nat) (d : Nat) (cs : List Call) (d' : Nat) : Prop := ∃ ds, Deep level d cs ds d'

namespace Moves

variable {level : Label → Nat} {d d₁ d' : Nat} {cs cs' : List Call} {l : Label}

theorem nil : Moves level d [] d := ⟨_, .nil⟩

theorem append (h : Moves level d cs d₁) (h' : Moves level d₁ cs' d') : Moves level d (cs ++ cs') d' := by
  obtain ⟨ds, deep⟩ := h
  obtain ⟨ds', deep'⟩ := h'
  exact ⟨ds ++ ds', deep.append deep'⟩

theorem makeLabel (h : Moves level d cs d') : Moves level d (.makeLabel :: cs) d' := by
  obtain ⟨ds, deep⟩ := h
  exact ⟨ds, .makeLabel deep⟩

theorem bind (hl : level l = d) (h : Moves level d cs d') : Moves level d (.bind l :: cs) d' := by
  obtain ⟨ds, deep⟩ := h
  exact ⟨ds, .bind hl deep⟩

theorem add {i : Instr} (takes : i.pops ≤ d) (none : i.offsets = []) (falls : i.fallsThrough = true)
    (h : Moves level (d - i.pops + i.pushes) cs d') : Moves level d (.add i :: cs) d' := by
  obtain ⟨ds, deep⟩ := h
  exact ⟨d :: ds, .add takes none (fun _ => rfl) (fun stops => by rw [falls] at stops; cases stops) deep⟩

theorem inc {slot : UInt16} {delta : Int32} (h : Moves level d cs d') :
    Moves level d (.inc slot delta :: cs) d' := by
  obtain ⟨ds, deep⟩ := h
  exact ⟨d :: ds, .inc deep⟩

theorem jump {j : Jump} (takes : j.pops ≤ d) (hl : level l = d - j.pops) (h : Moves level (d - j.pops) cs d') :
    Moves level d (.jump j l :: cs) d' := by
  obtain ⟨ds, deep⟩ := h
  exact ⟨d :: ds, .jump takes hl (fun _ => rfl) deep⟩

/-- After a `goto` the depth may be any. -/
theorem goto (hl : level l = d) (h : Moves level d₁ cs d') : Moves level d (.jump .goto l :: cs) d' := by
  obtain ⟨ds, deep⟩ := h
  exact ⟨d :: ds, .jump (Nat.zero_le d) hl (absurd rfl) deep⟩

/-- A return takes all that there is, and after it the depth may be any. -/
theorem stop {i : Instr} (all : d = i.pops) (none : i.offsets = []) (stops : i.fallsThrough = false)
    (h : Moves level d₁ cs d') : Moves level d (.add i :: cs) d' := by
  obtain ⟨ds, deep⟩ := h
  exact ⟨d :: ds, .add (Nat.le_of_eq all.symm) none (fun falls => by rw [stops] at falls; cases falls)
    (fun _ => all) deep⟩

end Moves

/-- A property of levels that some levels of the labels from one number to another are enough for,
whatever the levels of other labels are. -/
def Levels (n n' : Nat) (P : (Label → Nat) → Prop) : Prop :=
  ∃ chosen : Nat → Nat, ∀ level, (∀ id, n ≤ id → id < n' → level ⟨id⟩ = chosen id) → P level

namespace Levels

variable {n n₁ n' : Nat} {P Q : (Label → Nat) → Prop}

theorem all (h : ∀ level, P level) : Levels n n' P := ⟨fun _ => 0, fun level _ => h level⟩

theorem imp (h : Levels n n' P) (himp : ∀ level, P level → Q level) : Levels n n' Q := by
  obtain ⟨chosen, enough⟩ := h
  exact ⟨chosen, fun level agrees => himp level (enough level agrees)⟩

theorem seq (le : n ≤ n₁) (le' : n₁ ≤ n') (h : Levels n n₁ P) (h' : Levels n₁ n' Q) :
    Levels n n' fun level => P level ∧ Q level := by
  obtain ⟨chosen, enough⟩ := h
  obtain ⟨chosen', enough'⟩ := h'
  refine ⟨fun id => if id < n₁ then chosen id else chosen' id, fun level agrees => ⟨?_, ?_⟩⟩
  · refine enough level fun id low high => ?_
    exact (agrees id low (by omega)).trans (if_pos high)
  · refine enough' level fun id low high => ?_
    exact (agrees id (by omega) high).trans (if_neg (by omega))

/-- A new label gets any level. -/
theorem new (d : Nat) (le : n + 1 ≤ n') (h : Levels (n + 1) n' P) :
    Levels n n' fun level => level ⟨n⟩ = d ∧ P level := by
  have first : Levels n (n + 1) fun level => level ⟨n⟩ = d :=
    ⟨fun _ => d, fun level agrees => agrees n (Nat.le_refl n) (Nat.lt_succ_self n)⟩
  exact first.seq (Nat.le_succ n) le h

/-- All new labels get one level. -/
theorem same (d : Nat) : Levels n n' fun level => ∀ id, n ≤ id → id < n' → level ⟨id⟩ = d :=
  ⟨fun _ => d, fun _ agrees => agrees⟩

end Levels

/-! ## Expressions -/

/-- The depth after code of a form. -/
def Form.after (d : Nat) : Form → Nat
  | .value => d + 1
  | .branch .. | .effect => d

/-- The level that a form asks for. -/
def Form.Level (level : Label → Nat) (d : Nat) : Form → Prop
  | .branch target _ => level target = d
  | _ => True

theorem Place.moves_address (p : Place) (level : Label → Nat) (d : Nat) :
    Moves level d p.address.script (d + p.address.script.length) := by
  cases p with
  | ofLocal var => exact .nil
  | ofField field => exact .add (Nat.zero_le d) rfl rfl .nil

theorem Place.moves_read (p : Place) (level : Label → Nat) (d : Nat) :
    Moves level d p.read.script (d + 1) := by
  cases p with
  | ofLocal var => exact .add (Nat.zero_le d) rfl rfl .nil
  | ofField field => exact .add (Nat.zero_le d) rfl rfl (.add (Nat.le_add_left 1 d) rfl rfl .nil)

/-- Storing a value uses up the address below it. -/
theorem Place.moves_store (p : Place) (level : Label → Nat) (d : Nat) :
    Moves level (d + p.address.script.length + 1) p.store.script d := by
  cases p with
  | ofLocal var => exact .add (Nat.le_add_left 1 d) rfl rfl .nil
  | ofField field => exact .add (Nat.le_add_left 2 d) rfl rfl .nil

/-- A copy that is kept ends up below the address. -/
theorem Place.moves_keepCopy (p : Place) (level : Label → Nat) (d : Nat) :
    Moves level (d + p.address.script.length + 1) p.keepCopy.script (d + 1 + p.address.script.length + 1) := by
  cases p with
  | ofLocal var => exact .add (Nat.le_add_left 1 d) rfl rfl .nil
  | ofField field => exact .add (Nat.le_add_left 2 d) rfl rfl .nil

/-- A step leaves its value if it is wanted. -/
theorem Typed.Expr.moves_step {op : StepOp} {p : Place} {kind : Kind} (hk : p.ty.kind? = some kind)
    (wanted : Bool) (level : Label → Nat) (d : Nat) :
    Moves level d (lowerStep op p wanted).script (if wanted then d + 1 else d) := by
  have load (slot : UInt16) (cs : List Call) (d' : Nat) (h : Moves level (d + 1) cs d') :
      Moves level d (.add (.load kind slot) :: cs) d' := .add (Nat.zero_le d) rfl rfl h
  have change (k : Nat) (op : ArithOp) (cs : List Call) (d' : Nat) (h : Moves level (k + 1) cs d') :
      Moves level (k + 1) (.add kind.one :: .add (.arith op kind) :: cs) d' := by
    refine .add (by cases kind <;> exact Nat.zero_le _) (by cases kind <;> rfl) (by cases kind <;> rfl) ?_
    rw [show k + 1 - kind.one.pops + kind.one.pushes = k + 2 by cases kind <;> rfl]
    exact .add (Nat.le_add_left 2 k) rfl rfl h
  unfold Lower.script lowerStep
  rw [hk]
  cases p with
  | ofLocal var =>
    cases wanted with
    | false => cases op <;> exact .inc .nil
    | true =>
      cases op with
      | preInc | preDec => exact .inc (load _ _ _ .nil)
      | postInc | postDec => exact load _ _ _ (.inc .nil)
  | ofField field =>
    have fetch (cs : List Call) (d' : Nat) (h : Moves level (d + 2) cs d') :
        Moves level d (.add .loadThis :: .add .dup :: .add (.getField field.index) :: cs) d' :=
      .add (Nat.zero_le d) rfl rfl (.add (Nat.le_add_left 1 d) rfl rfl (.add (Nat.le_add_left 1 _) rfl rfl h))
    have copy (cs : List Call) (d' : Nat) (h : Moves level (d + 3) cs d') :
        Moves level (d + 2) (.add .dupX1 :: cs) d' := .add (Nat.le_add_left 2 d) rfl rfl h
    have store (k : Nat) : Moves level (k + 2) [.add (.putField field.index)] k :=
      .add (Nat.le_add_left 2 k) rfl rfl .nil
    cases wanted with
    | false => cases op <;> exact fetch _ _ (change _ _ _ _ (store d))
    | true =>
      cases op with
      | preInc | preDec => exact fetch _ _ (change _ _ _ _ (copy _ _ (store (d + 1))))
      | postInc | postDec => exact fetch _ _ (copy _ _ (change _ _ _ _ (store (d + 1))))

/-- A comparison takes two values and jumps with what is below them. -/
theorem moves_compareCalls {cond : Cond} {kind : Kind} {target : Label} {onTrue : Bool}
    {level : Label → Nat} {d : Nat} (h : level target = d) :
    Moves level (d + 2) (compareCalls cond kind target onTrue) d := by
  cases kind with
  | int => exact .jump (Nat.le_add_left 2 d) h .nil
  | long => exact .add (Nat.le_add_left 2 d) rfl rfl (.jump (Nat.le_add_left 1 d) h .nil)
  | double =>
    unfold compareCalls
    simp only
    split <;> exact .add (Nat.le_add_left 2 d) rfl rfl (.jump (Nat.le_add_left 1 d) h .nil)

theorem Emits.le {e : Typed.Expr} {form : Form} {n n' : Nat} {cs : List Call} (h : Emits e form n cs n') :
    n ≤ n' := by
  induction h <;> omega

/-- The code of an expression leaves its value on top, or nothing if it jumps. -/
theorem Emits.levels {e : Typed.Expr} {form : Form} {n n' : Nat} {cs : List Call}
    (h : Emits e form n cs n') (d : Nat) :
    Levels n n' fun level => form.Level level d → Moves level d cs (form.after d) := by
  induction h generalizing d with
  | @literal _ _ v _ =>
    refine .all fun level _ => ?_
    cases v <;> exact .add (Nat.zero_le d) rfl rfl .nil
  | taken => exact .all fun level hl => .goto hl .nil
  | untaken => exact .all fun level _ => .nil
  | load => exact .all fun level _ => Place.moves_read _ level d
  | negate _ _ ih =>
    exact (ih d).imp fun level value _ => (value trivial).append (.add (Nat.le_add_left 1 d) rfl rfl .nil)
  | not _ ih => exact ih d
  | step hk => exact .all fun level _ => Typed.Expr.moves_step hk true level d
  | stepEffect hk => exact .all fun level _ => Typed.Expr.moves_step hk false level d
  | arith _ left right ihl ihr =>
    refine ((ihl d).seq left.le right.le (ihr (d + 1))).imp fun level ⟨lhs, rhs⟩ _ => ?_
    exact (lhs trivial).append ((rhs trivial).append (.add (Nat.le_add_left 2 d) rfl rfl .nil))
  | compare left right ihl ihr =>
    refine ((ihl d).seq left.le right.le (ihr (d + 1))).imp fun level ⟨lhs, rhs⟩ hl => ?_
    exact (lhs trivial).append ((rhs trivial).append (moves_compareCalls hl))
  | shortcut left right ihl ihr =>
    refine ((ihl d).seq left.le right.le (ihr d)).imp fun level ⟨lhs, rhs⟩ hl => ?_
    exact (lhs hl).append (rhs hl)
  | skip left right ihl ihr =>
    have le := left.le
    have le' := right.le
    refine (((ihl d).seq le le' (ihr d)).new d (by omega)).imp fun level ⟨here, lhs, rhs⟩ hl => ?_
    exact ((lhs here).append ((rhs hl).append (.bind here .nil))).makeLabel
  | @assign _ _ p _ _ _ _ _ ih =>
    refine (ih (d + p.address.script.length)).imp fun level value _ => ?_
    exact (p.moves_address level d).append ((value trivial).append
      ((p.moves_keepCopy level d).append (p.moves_store level (d + 1))))
  | @assignEffect _ _ p _ _ _ _ _ ih =>
    refine (ih (d + p.address.script.length)).imp fun level value _ => ?_
    exact (p.moves_address level d).append ((value trivial).append (p.moves_store level d))
  | test _ _ _ ih =>
    exact (ih d).imp fun level value hl => (value trivial).append (.jump (Nat.le_add_left 1 d) hl .nil)
  | settle _ branch ih =>
    have le := branch.le
    refine (((ih d).new (d + 1) le).new d (by omega)).imp fun level ⟨onFalse, done, jumps⟩ _ => ?_
    refine .makeLabel (.makeLabel ((jumps onFalse).append (.add (Nat.zero_le d) rfl rfl ?_)))
    exact .goto done (.bind onFalse (.add (Nat.zero_le d) rfl rfl (.bind done .nil)))
  | drop _ _ ih =>
    exact (ih d).imp fun level value _ => (value trivial).append (.add (Nat.le_add_left 1 d) rfl rfl .nil)

/-! ## Statements -/

/-- All exits that are registered lead to an empty stack. -/
def ExitsEmpty (level : Label → Nat) (targets : List (Target × Exits)) : Prop :=
  ∀ target ex, targets.lookup target = some ex →
    level ex.breakLabel = 0 ∧ ∀ l ∈ ex.continueLabel, level l = 0

theorem ExitsEmpty.register {level : Label → Nat} {targets : List (Target × Exits)} {target : Target}
    {ex : Exits} (h : ExitsEmpty level targets) (hb : level ex.breakLabel = 0)
    (hc : ∀ l ∈ ex.continueLabel, level l = 0) : ExitsEmpty level ((target, ex) :: targets) := by
  intro t e found
  rw [List.lookup_cons] at found
  split at found
  · cases found
    exact ⟨hb, hc⟩
  · exact h t e found

theorem Moves.makeLabels {level : Label → Nat} {d d' n n' : Nat} {cs : List Call}
    (h : Moves level d cs d') : Moves level d (Typed.makeLabels n n' ++ cs) d' := by
  unfold Typed.makeLabels
  induction n' - n with
  | zero => exact h
  | succ k ih =>
    rw [List.replicate_succ]
    exact ih.makeLabel

theorem Moves.binds {level : Label → Nat} {d d' : Nat} {cs : List Call} {ls : List Label}
    (hl : ∀ l ∈ ls, level l = d) (h : Moves level d cs d') : Moves level d (ls.map .bind ++ cs) d' := by
  induction ls with
  | nil => exact h
  | cons l ls ih =>
    rw [List.forall_mem_cons] at hl
    exact .bind hl.1 (ih hl.2)

namespace Typed

theorem Plans.entry_made {d d' : Option Label} {labels : List CaseLabel} {n n' : Nat}
    {arms : List (Int32 × Label)} {entry : List Label} (h : Plans d labels n arms entry d' n') :
    (∀ l ∈ entry, d = some l ∨ n ≤ l.id ∧ l.id < n') ∧
    ∀ l ∈ d', d = some l ∨ n ≤ l.id ∧ l.id < n' := by
  induction h with
  | nil => exact ⟨nofun, fun l h => .inl h⟩
  | @case d v rest n arms entry d' n' plans ih =>
    have le := plans.le
    rw [List.forall_mem_cons]
    refine ⟨⟨.inr ⟨Nat.le_refl n, le⟩, fun l mem => ?_⟩, fun l hl => ?_⟩
    · exact (ih.1 l mem).imp_right (And.imp_left Nat.le_of_succ_le)
    · exact (ih.2 l hl).imp_right (And.imp_left Nat.le_of_succ_le)
  | @newDefault rest n arms entry d' n' plans ih =>
    have le := plans.le
    have made (l : Label) (h : some ⟨n⟩ = some l ∨ n + 1 ≤ l.id ∧ l.id < n') : n ≤ l.id ∧ l.id < n' := by
      rcases h with same | ⟨low, high⟩
      · cases same
        exact ⟨Nat.le_refl n, le⟩
      · exact ⟨Nat.le_of_succ_le low, high⟩
    rw [List.forall_mem_cons]
    exact ⟨⟨.inr (made _ (.inl rfl)), fun l mem => .inr (made l (ih.1 l mem))⟩,
      fun l hl => .inr (made l (ih.2 l hl))⟩
  | oldDefault _ ih =>
    rw [List.forall_mem_cons]
    exact ⟨⟨.inl rfl, ih.1⟩, ih.2⟩

theorem PlansAll.entries_made {d : Option Label} {groups : List (SwitchGroup CaseLabel Stmt)}
    {n n' : Nat} {plan : SwitchPlan} (h : PlansAll d groups n plan n') :
    ∀ l ∈ plan.entries.flatten, d = some l ∨ n ≤ l.id ∧ l.id < n' := by
  induction h with
  | nil => exact nofun
  | cons plans plansAll ih =>
    have le := plans.le
    have le' := plansAll.le
    intro l mem
    rw [List.flatten_cons] at mem
    rcases List.mem_append.1 mem with mem | mem
    · exact (plans.entry_made.1 l mem).imp_right fun ⟨low, high⟩ => ⟨low, by omega⟩
    · rcases ih l mem with same | ⟨low, high⟩
      · exact (plans.entry_made.2 l same).imp_right fun ⟨low, high⟩ => ⟨low, by omega⟩
      · exact .inr ⟨by omega, high⟩

theorem Lowers.le {piece : Piece} {s s' : LowerState} {cs : List Call} (h : Lowers piece s cs s') :
    s.labels ≤ s'.labels := by
  induction h with
  | define emits | expr emits | retValue emits => exact emits.le
  | ifThen emits _ ih | whileDo emits _ ih =>
    have := emits.le
    simp only at ih ⊢
    omega
  | ifElse emits _ _ ih ih' | doWhile _ emits ih =>
    have := emits.le
    simp only at *
    omega
  | forLoop _ _ _ emits ihI ihB ihU =>
    have := emits.le
    simp only at *
    omega
  | switch emits plans _ ih =>
    have := emits.le
    have := plans.le
    simp only at *
    omega
  | cons _ _ ih ih' | group _ _ ih ih' => exact Nat.le_trans ih ih'
  | block _ ih | present _ ih => exact ih
  | _ => exact Nat.le_refl _

/-- What holds of a piece that is lowered once the stack is empty at the exits and entries around it: some
property of the levels, and again that the stack is empty at the exits. -/
def Piece.Clears (piece : Piece) (s s' : LowerState) (P : (Label → Nat) → Prop) (level : Label → Nat) : Prop :=
  ExitsEmpty level s.targets → (∀ l ∈ piece.entryLabels, level l = 0) → P level ∧ ExitsEmpty level s'.targets

/-- What lowering a piece does to the depth of the stack: it is empty before and after, and at all exits
and entries. -/
def Piece.Empty (piece : Piece) (s : LowerState) (cs : List Call) (s' : LowerState) : (Label → Nat) → Prop :=
  piece.Clears s s' fun level => Moves level 0 cs 0

/-! The code of a construct consists of the code of its parts and of code around them. Whatever holds of the
parts, the stack is empty where one ends and the other begins. -/

section

variable {line : Line} {target : Target} {c : Expr} {t : Stmt} {s s₀ s₁ s₂ s' : LowerState} {cs : List Call}
  {n : Nat} {P P₀ P₁ P₂ : (Label → Nat) → Prop}

theorem levels_ifThen (emits : Emits c (.branch ⟨s.labels⟩ false) (s.labels + 1) cs n) (le : n ≤ s'.labels)
    (part : Levels n s'.labels (Piece.Clears (.stmt t) ⟨n, s.targets⟩ s' P)) :
    Levels s.labels s'.labels (Piece.Clears (.stmt (.ifElse line c t none)) s s' fun level =>
      Moves level 0 (.makeLabel :: cs) 0 ∧ P level ∧ Moves level 0 [.bind ⟨s.labels⟩] 0) := by
  have leC := emits.le
  refine (((emits.levels 0).seq leC le part).new 0 (by omega)).imp ?_
  intro level ⟨here, test, part⟩ exits _
  obtain ⟨holds, exits⟩ := part exits nofun
  exact ⟨⟨(test here).makeLabel, holds, .bind here .nil⟩, exits⟩

theorem levels_ifElse {e : Stmt} (emits : Emits c (.branch ⟨s.labels⟩ false) (s.labels + 1) cs n)
    (le₁ : n ≤ s₁.labels) (le₂ : s₁.labels + 1 ≤ s'.labels)
    (part₁ : Levels n s₁.labels (Piece.Clears (.stmt t) ⟨n, s.targets⟩ s₁ P₁))
    (part₂ : Levels (s₁.labels + 1) s'.labels (Piece.Clears (.stmt e) ⟨s₁.labels + 1, s₁.targets⟩ s' P₂)) :
    Levels s.labels s'.labels (Piece.Clears (.stmt (.ifElse line c t (some e))) s s' fun level =>
      Moves level 0 (.makeLabel :: cs) 0 ∧ P₁ level ∧
        Moves level 0 [.makeLabel, .jump .goto ⟨s₁.labels⟩, .bind ⟨s.labels⟩] 0 ∧ P₂ level ∧
        Moves level 0 [.bind ⟨s₁.labels⟩] 0) := by
  have leC := emits.le
  refine (((emits.levels 0).seq leC (by omega) (part₁.seq le₁ (by omega) (part₂.new 0 le₂))).new 0
    (by omega)).imp ?_
  intro level ⟨here, test, part₁, done, part₂⟩ exits _
  obtain ⟨holds₁, exits⟩ := part₁ exits nofun
  obtain ⟨holds₂, exits⟩ := part₂ exits nofun
  exact ⟨⟨(test here).makeLabel, holds₁, .makeLabel (.goto done (.bind here .nil)), holds₂, .bind done .nil⟩,
    exits⟩

theorem levels_whileDo (emits : Emits c (.branch ⟨s.labels + 1⟩ false) (s.labels + 2) cs n) (le : n ≤ s'.labels)
    (part : Levels n s'.labels (Piece.Clears (.stmt t)
      ⟨n, (target, ⟨⟨s.labels + 1⟩, some ⟨s.labels⟩⟩) :: s.targets⟩ s' P)) :
    Levels s.labels s'.labels (Piece.Clears (.stmt (.whileDo line target c t)) s s' fun level =>
      Moves level 0 (.makeLabel :: .makeLabel :: .bind ⟨s.labels⟩ :: cs) 0 ∧ P level ∧
        Moves level 0 [.jump .goto ⟨s.labels⟩, .bind ⟨s.labels + 1⟩] 0) := by
  have leC := emits.le
  refine ((((emits.levels 0).seq leC le part).new 0 (by omega)).new 0 (by omega)).imp ?_
  intro level ⟨top, done, test, part⟩ exits _
  obtain ⟨holds, exits⟩ := part (exits.register done (by rintro l ⟨⟩; exact top)) nofun
  exact ⟨⟨.makeLabel (.makeLabel (.bind top (test done))), holds, .goto top (.bind done .nil)⟩, exits⟩

theorem levels_doWhile (le : s.labels + 3 ≤ s₁.labels)
    (part : Levels (s.labels + 3) s₁.labels (Piece.Clears (.stmt t)
      ⟨s.labels + 3, (target, ⟨⟨s.labels + 2⟩, some ⟨s.labels + 1⟩⟩) :: s.targets⟩ s₁ P))
    (emits : Emits c (.branch ⟨s.labels⟩ true) s₁.labels cs n) :
    Levels s.labels n (Piece.Clears (.stmt (.doWhile line target t c)) s ⟨n, s₁.targets⟩ fun level =>
      Moves level 0 [.makeLabel, .makeLabel, .makeLabel, .bind ⟨s.labels⟩] 0 ∧ P level ∧
        Moves level 0 (.bind ⟨s.labels + 1⟩ :: (cs ++ [.bind ⟨s.labels + 2⟩])) 0) := by
  have leC := emits.le
  refine ((((part.seq le leC (emits.levels 0)).new 0 (by omega)).new 0 (by omega)).new 0 (by omega)).imp ?_
  intro level ⟨top, next, done, part, test⟩ exits _
  obtain ⟨holds, exits⟩ := part (exits.register done (by rintro l ⟨⟩; exact next)) nofun
  exact ⟨⟨.makeLabel (.makeLabel (.makeLabel (.bind top .nil))), holds,
    .bind next ((test top).append (.bind done .nil))⟩, exits⟩

theorem levels_forLoop {init update : List Stmt} {c : Option Expr} {body : Option Stmt}
    (le₀ : s.labels ≤ s₀.labels) (le₁ : s₀.labels + 4 ≤ s₁.labels) (le₂ : s₁.labels ≤ s₂.labels)
    (part₀ : Levels s.labels s₀.labels (Piece.Clears (.all init) s s₀ P₀))
    (part₁ : Levels (s₀.labels + 4) s₁.labels (Piece.Clears (.option body)
      ⟨s₀.labels + 4, (target, ⟨⟨s₀.labels + 3⟩, some ⟨s₀.labels + 1⟩⟩) :: s₀.targets⟩ s₁ P₁))
    (part₂ : Levels s₁.labels s₂.labels (Piece.Clears (.all update) s₁ s₂ P₂))
    (emits : Emits (c.getD .always) (.branch ⟨s₀.labels⟩ true) s₂.labels cs n) :
    Levels s.labels n (Piece.Clears (.stmt (.forLoop line target init c update body)) s ⟨n, s₂.targets⟩
      fun level => P₀ level ∧
        Moves level 0 [.makeLabel, .makeLabel, .makeLabel, .makeLabel, .jump .goto ⟨s₀.labels + 2⟩,
          .bind ⟨s₀.labels⟩] 0 ∧ P₁ level ∧ Moves level 0 [.bind ⟨s₀.labels + 1⟩] 0 ∧ P₂ level ∧
        Moves level 0 (.bind ⟨s₀.labels + 2⟩ :: (cs ++ [.bind ⟨s₀.labels + 3⟩])) 0) := by
  have leC := emits.le
  have round := part₁.seq le₁ (by omega) (part₂.seq le₂ leC (emits.levels 0))
  refine (part₀.seq le₀ (by omega) ((((round.new 0 (by omega)).new 0 (by omega)).new 0 (by omega)).new 0
    (by omega))).imp ?_
  intro level ⟨part₀, top, next, test, done, part₁, part₂, cond⟩ exits _
  obtain ⟨holds₀, exits⟩ := part₀ exits nofun
  obtain ⟨holds₁, exits⟩ := part₁ (exits.register done (by rintro l ⟨⟩; exact next)) nofun
  obtain ⟨holds₂, exits⟩ := part₂ exits nofun
  exact ⟨⟨holds₀, .makeLabel (.makeLabel (.makeLabel (.makeLabel (.goto test (.bind top .nil))))), holds₁,
    .bind next .nil, holds₂, .bind test ((cond top).append (.bind done .nil))⟩, exits⟩

theorem levels_switch {groups : List (SwitchGroup CaseLabel Stmt)} {plan : SwitchPlan} {n₁ : Nat}
    (emits : Emits c .value s.labels cs n) (plans : PlansAll none groups (n + 1) plan n₁) (le : n₁ ≤ s'.labels)
    (part : Levels n₁ s'.labels (Piece.Clears (.groups plan.entries groups)
      ⟨n₁, (target, ⟨⟨n⟩, none⟩) :: s.targets⟩ s' P)) :
    Levels s.labels s'.labels (Piece.Clears (.stmt (.switch line target c groups)) s s' fun level =>
      Moves level 0 (cs ++ (.makeLabel :: (makeLabels (n + 1) n₁ ++
        [.switch (plan.arms.map (·.1)) (plan.arms.map (·.2)) (plan.default?.getD ⟨n⟩)]))) 0 ∧ P level ∧
        Moves level 0 [.bind ⟨n⟩] 0) := by
  have leC := emits.le
  have leP := plans.le
  have labels : Levels (n + 1) n₁ fun level => ∀ id, n + 1 ≤ id → id < n₁ → level ⟨id⟩ = 0 := .same 0
  refine ((emits.levels 0).seq leC (by omega) ((labels.seq leP le part).new 0 (by omega))).imp ?_
  intro level ⟨value, done, made, part⟩ exits _
  have entries : ∀ l ∈ plan.entries.flatten, level l = 0 := by
    intro l mem
    obtain ⟨low, high⟩ := (plans.entries_made l mem).resolve_left nofun
    exact made l.id low high
  have mentioned : ∀ l ∈ plan.default?.getD ⟨n⟩ :: plan.arms.map (·.2), level l = 0 := by
    intro l mem
    rcases List.mem_cons.1 mem with rfl | mem
    · cases hd : plan.default? with
      | none => exact done
      | some l => exact entries l ((plans.labels_mem.2 l hd).resolve_left nofun)
    · obtain ⟨arm, ha, rfl⟩ := List.mem_map.1 mem
      exact entries _ (plans.labels_mem.1 arm ha)
  obtain ⟨holds, exits⟩ := part (exits.register done nofun) entries
  refine ⟨⟨(value trivial).append (.makeLabel (.makeLabels ?_)), holds, .bind done .nil⟩, exits⟩
  exact ⟨[1], .switch (Nat.le_refl 1) mentioned .nil⟩

theorem levels_cons {rest : List Stmt} (le₁ : s.labels ≤ s₁.labels) (le₂ : s₁.labels ≤ s'.labels)
    (part₁ : Levels s.labels s₁.labels (Piece.Clears (.stmt t) s s₁ P₁))
    (part₂ : Levels s₁.labels s'.labels (Piece.Clears (.all rest) s₁ s' P₂)) :
    Levels s.labels s'.labels (Piece.Clears (.all (t :: rest)) s s' fun level => P₁ level ∧ P₂ level) := by
  refine (part₁.seq le₁ le₂ part₂).imp fun level ⟨part₁, part₂⟩ exits _ => ?_
  obtain ⟨holds₁, exits⟩ := part₁ exits nofun
  obtain ⟨holds₂, exits⟩ := part₂ exits nofun
  exact ⟨⟨holds₁, holds₂⟩, exits⟩

theorem levels_group {entries : List (List Label)} {labels : List CaseLabel} {stmts : List Stmt}
    {rest : List (SwitchGroup CaseLabel Stmt)} (le₁ : s.labels ≤ s₁.labels) (le₂ : s₁.labels ≤ s'.labels)
    (part₁ : Levels s.labels s₁.labels (Piece.Clears (.all stmts) s s₁ P₁))
    (part₂ : Levels s₁.labels s'.labels (Piece.Clears (.groups entries.tail rest) s₁ s' P₂)) :
    Levels s.labels s'.labels (Piece.Clears (.groups entries (⟨labels, stmts⟩ :: rest)) s s' fun level =>
      Moves level 0 ((entries.headD []).map .bind) 0 ∧ P₁ level ∧ P₂ level) := by
  refine (part₁.seq le₁ le₂ part₂).imp fun level parts exits hl => ?_
  obtain ⟨part₁, part₂⟩ := parts
  have split : entries.flatten = entries.headD [] ++ entries.tail.flatten := by cases entries <;> rfl
  rw [Piece.entryLabels, split, List.forall_mem_append] at hl
  obtain ⟨holds₁, exits⟩ := part₁ exits (by intro l mem; cases mem)
  obtain ⟨holds₂, exits⟩ := part₂ exits hl.2
  have bound := Moves.binds hl.1 .nil
  rw [List.append_nil] at bound
  exact ⟨⟨bound, holds₁, holds₂⟩, exits⟩

end

/-- What holds of a piece may be weakened. -/
theorem Piece.Clears.imp {piece : Piece} {s s' : LowerState} {P Q : (Label → Nat) → Prop} {level : Label → Nat}
    (h : piece.Clears s s' P level) (himp : P level → Q level) : piece.Clears s s' Q level :=
  fun exits entries => (h exits entries).imp_left himp

theorem Lowers.levels {piece : Piece} {s s' : LowerState} {cs : List Call} (h : Lowers piece s cs s') :
    Levels s.labels s'.labels (piece.Empty s cs s') := by
  induction h with
  | block _ ih => exact ih.imp fun level body exits _ => body exits nofun
  | declare | strayBreak | strayContinue | continueSwitch | empty | nil | absent | noGroups =>
    exact .all fun level exits _ => ⟨.nil, exits⟩
  | define emits =>
    refine (emits.levels 0).imp fun level value exits _ => ⟨(value trivial).append ?_, exits⟩
    exact .add (Nat.le_refl 1) rfl rfl .nil
  | expr emits => exact (emits.levels 0).imp fun level effect exits _ => ⟨effect trivial, exits⟩
  | ifThen emits lowers ih =>
    refine (levels_ifThen emits lowers.le ih).imp fun level h => h.imp fun ⟨test, part, last⟩ => ?_
    exact test.append (part.append last)
  | ifElse emits lowers₁ lowers₂ ih₁ ih₂ =>
    refine (levels_ifElse emits lowers₁.le lowers₂.le ih₁ ih₂).imp fun level h =>
      h.imp fun ⟨test, part₁, between, part₂, last⟩ => ?_
    exact test.append (part₁.append (between.append (part₂.append last)))
  | whileDo emits lowers ih =>
    refine (levels_whileDo emits lowers.le ih).imp fun level h => h.imp fun ⟨test, part, last⟩ => ?_
    exact test.append (part.append last)
  | doWhile lowers emits ih =>
    refine (levels_doWhile lowers.le ih emits).imp fun level h => h.imp fun ⟨first, part, test⟩ => ?_
    exact first.append (part.append test)
  | forLoop lowers₀ lowers₁ lowers₂ emits ih₀ ih₁ ih₂ =>
    refine (levels_forLoop lowers₀.le lowers₁.le lowers₂.le ih₀ ih₁ ih₂ emits).imp fun level h =>
      h.imp fun ⟨part₀, first, part₁, next, part₂, test⟩ => ?_
    exact part₀.append (first.append (part₁.append (next.append (part₂.append test))))
  | switch emits plans lowers ih =>
    refine (levels_switch emits plans lowers.le ih).imp fun level h => h.imp fun ⟨first, part, last⟩ => ?_
    have code := first.append (part.append last)
    simpa only [List.append_assoc, List.cons_append, List.nil_append] using code
  | breakOut found => exact .all fun level exits _ => ⟨.goto (exits _ _ found).1 .nil, exits⟩
  | continueLoop found hl => exact .all fun level exits _ => ⟨.goto ((exits _ _ found).2 _ hl) .nil, exits⟩
  | ret => exact .all fun level exits _ => ⟨.stop rfl rfl rfl .nil, exits⟩
  | retValue emits =>
    refine (emits.levels 0).imp fun level value exits _ => ⟨(value trivial).append ?_, exits⟩
    exact .stop rfl rfl rfl .nil
  | cons lowers₁ lowers₂ ih₁ ih₂ =>
    exact (levels_cons lowers₁.le lowers₂.le ih₁ ih₂).imp fun level h => h.imp fun ⟨part₁, part₂⟩ =>
      part₁.append part₂
  | present _ ih => exact ih.imp fun level body exits _ => body exits nofun
  | group lowers₁ lowers₂ ih₁ ih₂ =>
    exact (levels_group lowers₁.le lowers₂.le ih₁ ih₂).imp fun level h => h.imp fun ⟨first, part₁, part₂⟩ =>
      first.append (part₁.append part₂)

end Typed

end Stacklet
