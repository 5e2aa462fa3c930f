import Stacklet.Proofs.Json.Double
import Stacklet.Proofs.Json.Program
import Stacklet.Proofs.Sequence

/-!
# Decoded programs

The double constants of a program that is read are finite (`Source.Program.finite_of_read?`): a double is
refused unless it is finite, and a whole number that stands for a double fits 64 bits.
-/

namespace Stacklet

namespace Json

/-- Reading a value whose whole numbers fit 64 bits gives what satisfies the predicate. -/
def Gives {α : Type} (read : Json → Option α) (Q : α → Prop) : Prop :=
  ∀ j a, j.Each InRange → read j = some a → Q a

/-- The whole numbers of what a record gives for a member fit 64 bits. -/
def Slot.InRange (s : Slot) : Prop := ∀ j, s = .given j → j.Each Json.InRange

/-- The members of a record are parts of its value. -/
theorem inRange_of_slots? {names : List String} {j : Json} {slots : List Slot} (each : j.Each InRange)
    (h : j.slots? names = some slots) : ∀ s ∈ slots, s.InRange := by
  unfold slots? at h
  split at h
  · next members =>
    split at h
    · cases h
      intro s mem v given
      obtain ⟨name, -, rfl⟩ := List.mem_map.1 mem
      cases found : members.lookup name with
      | none => rw [found] at given; cases given
      | some value =>
        rw [found] at given
        cases given
        exact eachMember_iff.1 each _ (mem_of_lookup found)
    · cases h
  · next items =>
    split at h
    · cases h
      intro s mem v given
      rcases List.mem_append.1 mem with mem | mem
      · obtain ⟨item, isItem, rfl⟩ := List.mem_map.1 mem
        cases given
        exact eachItem_iff.1 each _ isItem
      · rw [List.eq_of_mem_replicate mem] at given
        cases given
    · cases h
  · cases h

namespace Gives

variable {α : Type} {read : Json → Option α} {Q : α → Prop} {s : Slot}

theorem required (gives : Gives read Q) (range : s.InRange) {a : α} (h : s.required? read = some a) : Q a := by
  cases s with
  | given j => exact gives j a (range j rfl) h
  | absent | cut => cases h

theorem optional (gives : Gives read Q) (range : s.InRange) {o : Option α}
    (h : s.optional? read = some o) : ∀ a ∈ o, Q a := by
  unfold Slot.optional? at h
  split at h
  · cases h
    intro a mem
    cases mem
  · cases h
    intro a mem
    cases mem
  · next j _ =>
    obtain ⟨a, found, rfl⟩ := Option.map_eq_some_iff.1 h
    intro b mem
    cases mem
    exact gives j a (range j rfl) found
  · cases h

theorem orElse (gives : Gives read Q) (range : s.InRange) {missing a : α}
    (h : s.orElse? missing read = some a) (other : Q missing) : Q a := by
  cases s with
  | given j => exact gives j a (range j rfl) h
  | absent | cut => cases h; exact other

theorem items (gives : Gives read Q) {items : List Json} (each : EachItem InRange items) {as : List α}
    (h : items.mapM read = some as) : ∀ a ∈ as, Q a := by
  induction items generalizing as with
  | nil => cases h; intro a mem; cases mem
  | cons j rest ih =>
    rw [List.mapM_cons] at h
    obtain ⟨b, first, h⟩ := Option.bind_eq_some_iff.1 h
    obtain ⟨bs, others, h⟩ := Option.bind_eq_some_iff.1 h
    cases h
    exact List.forall_mem_cons.2 ⟨gives j b each.1 first, ih each.2 others⟩

end Gives

end Json

open Json (Gives inRange_of_slots?)

/-- The double constants are finite. -/
def AllFinite (xs : List Float) : Prop := ∀ x ∈ xs, x.isFinite = true

theorem allFinite_nil : AllFinite [] := by
  intro x mem
  cases mem

theorem allFinite_append {xs ys : List Float} (first : AllFinite xs) (second : AllFinite ys) :
    AllFinite (xs ++ ys) :=
  List.forall_mem_append.2 ⟨first, second⟩

theorem Json.gives_f64? : Gives f64? fun x => x.isFinite = true := by
  intro j x each h
  unfold f64? at h
  split at h
  · cases h
    exact isFinite_ofInt each
  · split at h
    · next finite => cases h; exact finite
    · cases h
  · cases h

theorem Literal.gives_read? (depth : Nat) : Gives (read? depth) fun v => AllFinite v.doubles := by
  intro j v each h
  unfold read? at h
  split at h
  · obtain ⟨n, -, rfl⟩ := Option.map_eq_some_iff.1 h
    exact allFinite_nil
  · obtain ⟨n, -, rfl⟩ := Option.map_eq_some_iff.1 h
    exact allFinite_nil
  · obtain ⟨y, read, rfl⟩ := Option.map_eq_some_iff.1 h
    exact List.forall_mem_singleton.2 (Json.gives_f64? _ _ each.1 read)
  · obtain ⟨b, -, rfl⟩ := Option.map_eq_some_iff.1 h
    exact allFinite_nil
  · cases h

namespace Source

namespace Expr

mutual

theorem gives_read? : ∀ depth, Gives (read? depth) fun e => AllFinite e.doubles
  | 0, _, _, _, h => by cases h
  | depth + 1, j, e, each, h => by
    unfold read? at h
    obtain ⟨slots, members, h⟩ := Option.bind_eq_some_iff.1 h
    have range := inRange_of_slots? each members
    split at h
    · obtain ⟨line, -, h⟩ := Option.bind_eq_some_iff.1 h
      split at h
      · exact gives_readForm? line depth _ e (range _ (by simp) _ rfl) h
      · cases h
    · cases h

theorem gives_readForm? (line : Line) : ∀ depth, Gives (readForm? line depth) fun e => AllFinite e.doubles
  | 0, _, _, _, h => by cases h
  | depth + 1, j, e, each, h => by
    unfold readForm? at h
    split at h
    · next eq =>
      cases eq
      split at h
      · obtain ⟨v, read, rfl⟩ := Option.map_eq_some_iff.1 h
        exact Literal.gives_read? depth _ v each.1 read
      · obtain ⟨name, -, rfl⟩ := Option.map_eq_some_iff.1 h
        exact allFinite_nil
      · obtain ⟨name, -, rfl⟩ := Option.map_eq_some_iff.1 h
        exact allFinite_nil
      · exact gives_readParts? line _ _ _ e each.1 h
    · cases h

theorem gives_readParts? (line : Line) (form : String) :
    ∀ depth, Gives (readParts? line form depth) fun e => AllFinite e.doubles
  | 0, _, _, _, h => by cases h
  | depth + 1, j, e, each, h => by
    unfold readParts? at h
    split at h
    case h_5 => cases h
    all_goals
      obtain ⟨slots, members, h⟩ := Option.bind_eq_some_iff.1 h
      have range := inRange_of_slots? each members
      split at h
      case h_2 => cases h
    · obtain ⟨op, -, h⟩ := Option.bind_eq_some_iff.1 h
      obtain ⟨e, operand, h⟩ := Option.bind_eq_some_iff.1 h
      cases h
      exact gives_read? depth _ e (range _ (by simp) _ rfl) operand
    · obtain ⟨op, -, h⟩ := Option.bind_eq_some_iff.1 h
      obtain ⟨e, operand, h⟩ := Option.bind_eq_some_iff.1 h
      cases h
      exact gives_read? depth _ e (range _ (by simp) _ rfl) operand
    · obtain ⟨op, -, h⟩ := Option.bind_eq_some_iff.1 h
      obtain ⟨l, lhs, h⟩ := Option.bind_eq_some_iff.1 h
      obtain ⟨r, rhs, h⟩ := Option.bind_eq_some_iff.1 h
      cases h
      exact allFinite_append (gives_read? depth _ l (range _ (by simp) _ rfl) lhs)
        (gives_read? depth _ r (range _ (by simp) _ rfl) rhs)
    · obtain ⟨t, target, h⟩ := Option.bind_eq_some_iff.1 h
      obtain ⟨v, value, h⟩ := Option.bind_eq_some_iff.1 h
      cases h
      exact allFinite_append (gives_read? depth _ t (range _ (by simp) _ rfl) target)
        (gives_read? depth _ v (range _ (by simp) _ rfl) value)

end

end Expr

theorem CaseLabel.gives_read? (depth : Nat) : Gives (read? depth) fun l => AllFinite l.doubles := by
  intro j l each h
  unfold read? at h
  split at h
  · cases h
    exact allFinite_nil
  · cases h
    exact allFinite_nil
  · obtain ⟨e, read, rfl⟩ := Option.map_eq_some_iff.1 h
    exact Expr.gives_read? _ _ e each.1 read
  · cases h

theorem CaseLabel.gives_list? (depth : Nat) :
    Gives (Json.list? read? depth) fun ls => ∀ l ∈ ls, AllFinite l.doubles := by
  intro j ls each h
  unfold Json.list? at h
  split at h
  · exact (gives_read? _).items each h
  · cases h

namespace Stmt

theorem allFinite_of_ofJsonName? {line : Line} {name : String} {s : Stmt} (h : ofJsonName? line name = some s) :
    AllFinite s.doubles := by
  unfold ofJsonName? at h
  split at h
  case h_4 => cases h
  all_goals
    cases h
    exact allFinite_nil

theorem allFinite_doublesAll {ss : List Stmt} (finite : ∀ s ∈ ss, AllFinite s.doubles) :
    AllFinite (doublesAll ss) := by
  induction ss with
  | nil => exact allFinite_nil
  | cons s rest ih =>
    obtain ⟨first, others⟩ := List.forall_mem_cons.1 finite
    exact allFinite_append first (ih others)

theorem allFinite_doublesOption {o : Option Stmt} (finite : ∀ s ∈ o, AllFinite s.doubles) :
    AllFinite (doublesOption o) := by
  cases o with
  | none => exact allFinite_nil
  | some s => exact finite s rfl

theorem allFinite_doublesGroups {groups : List (SwitchGroup CaseLabel Stmt)}
    (finite : ∀ g ∈ groups, (∀ l ∈ g.labels, AllFinite l.doubles) ∧ AllFinite (doublesAll g.block)) :
    AllFinite (doublesGroups groups) := by
  induction groups with
  | nil => exact allFinite_nil
  | cons g rest ih =>
    obtain ⟨⟨labels, block⟩, others⟩ := List.forall_mem_cons.1 finite
    refine allFinite_append (allFinite_append ?_ block) (ih others)
    intro x mem
    obtain ⟨l, isLabel, mem⟩ := List.mem_flatMap.1 mem
    exact labels l isLabel x mem

theorem allFinite_elim {o : Option Expr} (finite : ∀ e ∈ o, AllFinite e.doubles) :
    AllFinite (o.elim [] Expr.doubles) := by
  cases o with
  | none => exact allFinite_nil
  | some e => exact finite e rfl

mutual

theorem gives_read? : ∀ depth, Gives (read? depth) fun s => AllFinite s.doubles
  | 0, _, _, _, h => by cases h
  | depth + 1, j, s, each, h => by
    unfold read? at h
    obtain ⟨slots, members, h⟩ := Option.bind_eq_some_iff.1 h
    have range := inRange_of_slots? each members
    split at h
    · obtain ⟨line, -, h⟩ := Option.bind_eq_some_iff.1 h
      split at h
      · exact gives_readForm? line depth _ s (range _ (by simp) _ rfl) h
      · cases h
    · cases h

theorem gives_readAll? : ∀ depth, Gives (readAll? depth) fun ss => AllFinite (doublesAll ss)
  | 0, _, _, _, h => by cases h
  | depth + 1, j, ss, each, h => by
    unfold readAll? at h
    split at h
    · next eq =>
      cases eq
      exact allFinite_doublesAll ((gives_read? depth).items each h)
    · cases h

theorem gives_readForm? (line : Line) : ∀ depth, Gives (readForm? line depth) fun s => AllFinite s.doubles
  | 0, j, s, each, h => by
    unfold readForm? at h
    split at h
    · exact allFinite_of_ofJsonName? h
    · exact allFinite_of_ofJsonName? h
    · next eq => cases eq
    · cases h
  | depth + 1, j, s, each, h => by
    unfold readForm? at h
    split at h
    · exact allFinite_of_ofJsonName? h
    · exact allFinite_of_ofJsonName? h
    · next eq =>
      cases eq
      split at h
      · obtain ⟨body, read, rfl⟩ := Option.map_eq_some_iff.1 h
        exact gives_readAll? depth _ body each.1 read
      · obtain ⟨e, read, rfl⟩ := Option.map_eq_some_iff.1 h
        exact Expr.gives_read? depth _ e each.1 read
      · exact gives_readParts? line _ depth _ s each.1 h
    · cases h

theorem gives_readParts? (line : Line) (form : String) :
    ∀ depth, Gives (readParts? line form depth) fun s => AllFinite s.doubles
  | 0, _, _, _, h => by cases h
  | depth + 1, j, s, each, h => by
    unfold readParts? at h
    split at h
    case h_8 => cases h
    all_goals
      obtain ⟨slots, members, h⟩ := Option.bind_eq_some_iff.1 h
      have range := inRange_of_slots? each members
      split at h
      case h_2 => cases h
      simp only [List.forall_mem_cons] at range
    · -- A declaration.
      obtain ⟨name, -, h⟩ := Option.bind_eq_some_iff.1 h
      obtain ⟨ty, -, h⟩ := Option.bind_eq_some_iff.1 h
      obtain ⟨value, init, h⟩ := Option.bind_eq_some_iff.1 h
      cases h
      exact allFinite_elim ((Expr.gives_read? depth).optional range.2.2.1 init)
    · obtain ⟨c, condition, h⟩ := Option.bind_eq_some_iff.1 h
      obtain ⟨t, thenPart, h⟩ := Option.bind_eq_some_iff.1 h
      obtain ⟨e, elsePart, h⟩ := Option.bind_eq_some_iff.1 h
      cases h
      exact allFinite_append
        (allFinite_append ((Expr.gives_read? depth).required range.1 condition)
          (gives_read? depth _ t (range.2.1 _ rfl) thenPart))
        (allFinite_doublesOption ((gives_read? depth).optional range.2.2.1 elsePart))
    · obtain ⟨c, condition, h⟩ := Option.bind_eq_some_iff.1 h
      obtain ⟨b, body, h⟩ := Option.bind_eq_some_iff.1 h
      cases h
      exact allFinite_append ((Expr.gives_read? depth).required range.1 condition)
        (gives_read? depth _ b (range.2.1 _ rfl) body)
    · obtain ⟨b, body, h⟩ := Option.bind_eq_some_iff.1 h
      obtain ⟨c, condition, h⟩ := Option.bind_eq_some_iff.1 h
      cases h
      exact allFinite_append (gives_read? depth _ b (range.1 _ rfl) body)
        ((Expr.gives_read? depth).required range.2.1 condition)
    · obtain ⟨i, init, h⟩ := Option.bind_eq_some_iff.1 h
      obtain ⟨c, condition, h⟩ := Option.bind_eq_some_iff.1 h
      obtain ⟨u, update, h⟩ := Option.bind_eq_some_iff.1 h
      obtain ⟨b, body, h⟩ := Option.bind_eq_some_iff.1 h
      cases h
      exact allFinite_append
        (allFinite_append
          (allFinite_append ((gives_readAll? depth).orElse range.1 init allFinite_nil)
            (allFinite_elim ((Expr.gives_read? depth).optional range.2.1 condition)))
          ((gives_readAll? depth).orElse range.2.2.1 update allFinite_nil))
        (allFinite_doublesOption ((gives_read? depth).optional range.2.2.2.1 body))
    · obtain ⟨d, discriminant, h⟩ := Option.bind_eq_some_iff.1 h
      obtain ⟨g, groups, h⟩ := Option.bind_eq_some_iff.1 h
      cases h
      exact allFinite_append ((Expr.gives_read? depth).required range.1 discriminant)
        (gives_readGroups? depth _ g (range.2.1 _ rfl) groups)
    · obtain ⟨v, value, h⟩ := Option.bind_eq_some_iff.1 h
      cases h
      exact allFinite_elim ((Expr.gives_read? depth).optional range.1 value)

theorem gives_readGroups? : ∀ depth, Gives (readGroups? depth) fun groups => AllFinite (doublesGroups groups)
  | 0, _, _, _, h => by cases h
  | depth + 1, j, groups, each, h => by
    unfold readGroups? at h
    split at h
    · next eq =>
      cases eq
      exact allFinite_doublesGroups ((gives_readGroup? depth).items each h)
    · cases h

theorem gives_readGroup? : ∀ depth, Gives (readGroup? depth) fun g =>
    (∀ l ∈ g.labels, AllFinite l.doubles) ∧ AllFinite (doublesAll g.block)
  | 0, _, _, _, h => by cases h
  | depth + 1, j, g, each, h => by
    unfold readGroup? at h
    obtain ⟨slots, members, h⟩ := Option.bind_eq_some_iff.1 h
    have range := inRange_of_slots? each members
    split at h
    case h_2 => cases h
    simp only [List.forall_mem_cons] at range
    obtain ⟨ls, labels, h⟩ := Option.bind_eq_some_iff.1 h
    obtain ⟨ss, stmts, h⟩ := Option.bind_eq_some_iff.1 h
    cases h
    exact ⟨(CaseLabel.gives_list? depth).required range.1 labels,
      (gives_readAll? depth).orElse range.2.1 stmts allFinite_nil⟩

end

end Stmt

/-- The double constants of a program that is read are finite. -/
theorem Program.gives_read? : ∀ depth, Gives (read? depth) fun p => AllFinite p.doubles
  | 0, _, _, _, h => by cases h
  | depth + 1, j, p, each, h => by
    unfold read? at h
    obtain ⟨slots, members, h⟩ := Option.bind_eq_some_iff.1 h
    have range := inRange_of_slots? each members
    split at h
    case h_2 => cases h
    simp only [List.forall_mem_cons] at range
    obtain ⟨name, -, h⟩ := Option.bind_eq_some_iff.1 h
    obtain ⟨fields, -, h⟩ := Option.bind_eq_some_iff.1 h
    obtain ⟨returns, -, h⟩ := Option.bind_eq_some_iff.1 h
    obtain ⟨ss, body, h⟩ := Option.bind_eq_some_iff.1 h
    cases h
    exact (Stmt.gives_readAll? depth).required range.2.2.2.1 body

end Source

end Stacklet
