import Stacklet.Source.Json
import Stacklet.Proofs.Json.Text

/-!
# Programs as JSON values

Reading the value of a program gives the program back if its double constants are finite and objects and
arrays are nested no deeper in it than the reader goes (`Source.Program.read?_toJson`). The scalars of
the value are strings, truth values, whole numbers of at most 64 bits and the double constants
(`Source.Program.each_toJson`).
-/

namespace Stacklet

/-! ## Nesting -/

namespace Json

mutual

/-- How deep objects and arrays are nested in a value. -/
def nesting : Json → Nat
  | .arr items => itemsNesting items + 1
  | .obj members => membersNesting members + 1
  | _ => 0

/-- How deep they are nested in the items of an array. -/
def itemsNesting : List Json → Nat
  | [] => 0
  | j :: rest => max j.nesting (itemsNesting rest)

/-- How deep they are nested in the members of an object. -/
def membersNesting : List (String × Json) → Nat
  | [] => 0
  | (_, j) :: rest => max j.nesting (membersNesting rest)

end

theorem nesting_le_itemsNesting {items : List Json} {j : Json} (mem : j ∈ items) :
    j.nesting ≤ itemsNesting items := by
  induction mem with
  | head => exact Nat.le_max_left _ _
  | tail _ _ ih => exact Nat.le_trans ih (Nat.le_max_right _ _)

end Json

/-! ## Double constants -/

/-- The doubles in a constant. -/
def Literal.doubles : Literal → List Float
  | .double x => [x]
  | _ => []

namespace Source

/-- The double constants of an expression. -/
def Expr.doubles : Expr → List Float
  | .literal _ v => v.doubles
  | .var .. | .field .. => []
  | .unary _ _ e | .step _ _ e => e.doubles
  | .binary _ _ l r | .assign _ l r => l.doubles ++ r.doubles

/-- The double constants of a label. -/
def CaseLabel.doubles : CaseLabel → List Float
  | .case e => e.doubles
  | .otherwise => []

namespace Stmt

mutual

/-- The double constants of a statement. -/
def doubles : Stmt → List Float
  | .block _ body => doublesAll body
  | .declare _ _ _ init => init.elim [] Expr.doubles
  | .expr _ e => e.doubles
  | .ifElse _ c t e => c.doubles ++ t.doubles ++ doublesOption e
  | .whileDo _ c body => c.doubles ++ body.doubles
  | .doWhile _ body c => body.doubles ++ c.doubles
  | .forLoop _ init c update body =>
    doublesAll init ++ c.elim [] Expr.doubles ++ doublesAll update ++ doublesOption body
  | .switch _ d groups => d.doubles ++ doublesGroups groups
  | .breakOut _ | .continueLoop _ | .empty _ => []
  | .ret _ value => value.elim [] Expr.doubles

/-- The double constants of statements in order. -/
def doublesAll : List Stmt → List Float
  | [] => []
  | s :: rest => s.doubles ++ doublesAll rest

/-- The double constants of a statement that may be absent. -/
def doublesOption : Option Stmt → List Float
  | none => []
  | some s => s.doubles

/-- The double constants of the groups of a switch. -/
def doublesGroups : List (SwitchGroup CaseLabel Stmt) → List Float
  | [] => []
  | ⟨labels, stmts⟩ :: rest => labels.flatMap CaseLabel.doubles ++ doublesAll stmts ++ doublesGroups rest

end

end Stmt

/-- The double constants of a program. -/
def Program.doubles (p : Program) : List Float := Stmt.doublesAll p.body

end Source

/-! ## Reading back -/

/-- A list is read back if each of its items is. -/
theorem Json.mapM_map_eq_some {α : Type} {encode : α → Json} {read : Json → Option α} {xs : List α}
    (h : ∀ x ∈ xs, read (encode x) = some x) : (xs.map encode).mapM read = some xs := by
  induction xs with
  | nil => rfl
  | cons x xs ih =>
    obtain ⟨first, others⟩ := List.forall_mem_cons.1 h
    simp [first, ih others]

theorem Json.u32?_nat (n : UInt32) : (Json.nat n.toNat).u32? = some n := by
  have := n.toNat_lt
  simp [Json.nat, Json.u32?, Json.intIn?]
  omega

theorem Json.i32?_int (n : Int32) : (Json.int n.toInt).i32? = some n := by
  have := n.le_toInt
  have := n.toInt_lt
  simp [Json.i32?, Json.intIn?]
  omega

theorem Json.i64?_int (n : Int64) : (Json.int n.toInt).i64? = some n := by
  have := n.le_toInt
  have := n.toInt_lt
  simp [Json.i64?, Json.intIn?]
  omega

theorem Ty.read?_toJson (t : Ty) (depth : Nat) : read? depth t.toJson = some t := by
  simp [read?, toJson, Json.choice?]

theorem Literal.read?_toJson {v : Literal} (depth : Nat) (finite : ∀ x ∈ v.doubles, x.isFinite = true)
    (deep : v.toJson.nesting ≤ depth) : read? depth v.toJson = some v := by
  obtain ⟨depth, rfl⟩ : ∃ d, depth = d + 1 :=
    ⟨depth - 1, by cases v <;> simp [toJson, Json.nesting] at deep <;> omega⟩
  cases v with
  | int v => simp [toJson, read?, Json.i32?_int]
  | long v => simp [toJson, read?, Json.i64?_int]
  | double v => simp [toJson, read?, Json.f64?, finite v List.mem_cons_self]
  | bool v => rfl

namespace Source

namespace Expr

/-- A node is read through its form. -/
theorem read?_jsonNode {line : Line} {form : String} {parts : Json} {depth : Nat}
    (deep : (jsonNode line form parts).nesting ≤ depth) :
    ∃ d, parts.nesting ≤ d ∧
      read? depth (jsonNode line form parts) = readForm? line (d + 1) (.obj [(form, parts)]) := by
  simp [jsonNode, Json.nesting, Json.membersNesting, Json.nat] at deep
  obtain ⟨depth, rfl⟩ : ∃ d, depth = d + 2 := ⟨depth - 2, by omega⟩
  refine ⟨depth, by omega, ?_⟩
  simp [read?, jsonNode, Json.slots?, Json.Slot.orElse?, Json.u32?_nat, List.lookup_cons]

/-- A node that is not a leaf is read through its parts. -/
theorem read?_jsonNode_obj {line : Line} {form : String} {members : List (String × Json)} {depth : Nat}
    (compound : form ∉ ["literal", "var", "field"])
    (deep : (jsonNode line form (.obj members)).nesting ≤ depth) :
    ∃ d, Json.membersNesting members ≤ d ∧
      read? depth (jsonNode line form (.obj members)) = readParts? line form (d + 1) (.obj members) := by
  obtain ⟨d, deep, read⟩ := read?_jsonNode deep
  rw [Json.nesting] at deep
  obtain ⟨d, rfl⟩ : ∃ d', d = d' + 1 := ⟨d - 1, by omega⟩
  refine ⟨d, by omega, ?_⟩
  simp only [List.mem_cons, List.not_mem_nil, not_or, or_false] at compound
  rw [read, readForm?]
  · exact compound.1
  · exact compound.2.1
  · exact compound.2.2

theorem read?_toJson {e : Expr} (depth : Nat) (finite : ∀ x ∈ e.doubles, x.isFinite = true)
    (deep : e.toJson.nesting ≤ depth) : read? depth e.toJson = some e := by
  induction e generalizing depth with
  | literal line v =>
    obtain ⟨d, deep, read⟩ := read?_jsonNode deep
    simp [toJson, read, readForm?, Literal.read?_toJson d finite deep]
  | var line name =>
    obtain ⟨d, -, read⟩ := read?_jsonNode deep
    simp [toJson, read, readForm?, Json.str?]
  | field line name =>
    obtain ⟨d, -, read⟩ := read?_jsonNode deep
    simp [toJson, read, readForm?, Json.str?]
  | unary line op e ih =>
    obtain ⟨d, deep, read⟩ := read?_jsonNode_obj (by decide) deep
    simp only [Json.membersNesting] at deep
    have operand := ih d finite (by omega)
    simp [toJson, read, readParts?, Json.slots?, List.lookup_cons, Json.Slot.required?, Json.choice?, operand]
  | step line op e ih =>
    obtain ⟨d, deep, read⟩ := read?_jsonNode_obj (by decide) deep
    simp only [Json.membersNesting] at deep
    have operand := ih d finite (by omega)
    simp [toJson, read, readParts?, Json.slots?, List.lookup_cons, Json.Slot.required?, Json.choice?, operand]
  | binary line op l r ihl ihr =>
    obtain ⟨d, deep, read⟩ := read?_jsonNode_obj (by decide) deep
    simp only [Json.membersNesting] at deep
    obtain ⟨finiteLeft, finiteRight⟩ := List.forall_mem_append.1 finite
    have left := ihl d finiteLeft (by omega)
    have right := ihr d finiteRight (by omega)
    simp [toJson, read, readParts?, Json.slots?, List.lookup_cons, Json.Slot.required?, Json.choice?, left,
      right]
  | assign line t v iht ihv =>
    obtain ⟨d, deep, read⟩ := read?_jsonNode_obj (by decide) deep
    simp only [Json.membersNesting] at deep
    obtain ⟨finiteTarget, finiteValue⟩ := List.forall_mem_append.1 finite
    have target := iht d finiteTarget (by omega)
    have value := ihv d finiteValue (by omega)
    simp [toJson, read, readParts?, Json.slots?, List.lookup_cons, target, value]

theorem optional?_toJson {o : Option Expr} (depth : Nat)
    (finite : ∀ x ∈ o.elim [] doubles, x.isFinite = true)
    (deep : (Json.ofOption toJson o).nesting ≤ depth) :
    (Json.Slot.given (.ofOption toJson o)).optional? (read? depth) = some o := by
  cases o with
  | none => rfl
  | some e =>
    have read := read?_toJson depth finite deep
    have present : (Json.Slot.given e.toJson).optional? (read? depth) = (read? depth e.toJson).map some := by
      cases e <;> rfl
    rw [Json.ofOption, present, read]
    rfl

end Expr

theorem CaseLabel.read?_toJson {l : CaseLabel} (depth : Nat) (finite : ∀ x ∈ l.doubles, x.isFinite = true)
    (deep : l.toJson.nesting ≤ depth) : read? depth l.toJson = some l := by
  cases l with
  | case e =>
    simp only [toJson, Json.nesting, Json.membersNesting] at deep
    obtain ⟨depth, rfl⟩ : ∃ d, depth = d + 1 := ⟨depth - 1, by omega⟩
    simp [toJson, read?, Expr.read?_toJson depth finite (by omega)]
  | otherwise => simp [toJson, read?]

namespace Stmt

/-- A node is read through its form. -/
theorem read?_jsonNode {line : Line} {kind : Json} {depth : Nat}
    (deep : (jsonNode line kind).nesting ≤ depth) :
    ∃ d, kind.nesting ≤ d ∧ read? depth (jsonNode line kind) = readForm? line d kind := by
  simp only [jsonNode, Json.nesting, Json.membersNesting] at deep
  obtain ⟨depth, rfl⟩ : ∃ d, depth = d + 1 := ⟨depth - 1, by omega⟩
  refine ⟨depth, by omega, ?_⟩
  simp [read?, jsonNode, Json.slots?, Json.Slot.orElse?, Json.u32?_nat, List.lookup_cons]

/-- A node that is made of several parts is read through them. -/
theorem read?_jsonNode_obj {line : Line} {form : String} {members : List (String × Json)} {depth : Nat}
    (compound : form ∉ ["block", "expr"])
    (deep : (jsonNode line (.obj [(form, .obj members)])).nesting ≤ depth) :
    ∃ d, Json.membersNesting members ≤ d ∧
      read? depth (jsonNode line (.obj [(form, .obj members)])) =
        readParts? line form (d + 1) (.obj members) := by
  obtain ⟨d, deep, read⟩ := read?_jsonNode deep
  simp only [Json.nesting, Json.membersNesting] at deep
  obtain ⟨d, rfl⟩ : ∃ d', d = d' + 2 := ⟨d - 2, by omega⟩
  refine ⟨d, by omega, ?_⟩
  simp only [List.mem_cons, List.not_mem_nil, not_or, or_false] at compound
  rw [read, readForm?]
  · simp
  · exact compound.1
  · exact compound.2

mutual

theorem read?_toJson (depth : Nat) : ∀ {s : Stmt}, (∀ x ∈ s.doubles, x.isFinite = true) →
    s.toJson.nesting ≤ depth → read? depth s.toJson = some s
  | .block line body, finite, deep => by
    obtain ⟨d, deep, read⟩ := read?_jsonNode deep
    simp only [Json.nesting, Json.membersNesting] at deep
    obtain ⟨d, rfl⟩ : ∃ d', d = d' + 2 := ⟨d - 2, by omega⟩
    have all : (allToJson body).mapM (read? d) = some body := mapM_read? d finite (by omega)
    simp [toJson, read, readForm?, readAll?, all]
  | .declare line name ty init, finite, deep => by
    obtain ⟨d, deep, read⟩ := read?_jsonNode_obj (by decide) deep
    simp only [Json.membersNesting] at deep
    have value := Expr.optional?_toJson d finite (by omega)
    simp [toJson, read, readParts?, Json.slots?, List.lookup_cons, Json.Slot.required?, Json.str?,
      Ty.read?_toJson, value]
  | .expr line e, finite, deep => by
    obtain ⟨d, deep, read⟩ := read?_jsonNode deep
    simp only [Json.nesting, Json.membersNesting] at deep
    obtain ⟨d, rfl⟩ : ∃ d', d = d' + 1 := ⟨d - 1, by omega⟩
    have value : Expr.read? d e.toJson = some e := Expr.read?_toJson d finite (by omega)
    have form : readForm? line (d + 1) (.obj [("expr", e.toJson)]) =
        (Expr.read? d e.toJson).map (.expr line) := by
      cases e <;> rfl
    rw [toJson, read, form, value]
    rfl
  | .ifElse line c t e, finite, deep => by
    obtain ⟨d, deep, read⟩ := read?_jsonNode_obj (by decide) deep
    simp only [Json.membersNesting] at deep
    simp only [doubles, List.forall_mem_append] at finite
    have condition := Expr.read?_toJson d finite.1.1 (by omega)
    have thenPart := read?_toJson d finite.1.2 (by omega)
    have elsePart := optional?_toJson d finite.2 (by omega)
    simp [toJson, read, readParts?, Json.slots?, List.lookup_cons, Json.Slot.required?, condition, thenPart,
      elsePart]
  | .whileDo line c body, finite, deep => by
    obtain ⟨d, deep, read⟩ := read?_jsonNode_obj (by decide) deep
    simp only [Json.membersNesting] at deep
    simp only [doubles, List.forall_mem_append] at finite
    have condition := Expr.read?_toJson d finite.1 (by omega)
    have body := read?_toJson d finite.2 (by omega)
    simp [toJson, read, readParts?, Json.slots?, List.lookup_cons, Json.Slot.required?, condition, body]
  | .doWhile line body c, finite, deep => by
    obtain ⟨d, deep, read⟩ := read?_jsonNode_obj (by decide) deep
    simp only [Json.membersNesting] at deep
    simp only [doubles, List.forall_mem_append] at finite
    have body := read?_toJson d finite.1 (by omega)
    have condition := Expr.read?_toJson d finite.2 (by omega)
    simp [toJson, read, readParts?, Json.slots?, List.lookup_cons, Json.Slot.required?, condition, body]
  | .forLoop line init c update body, finite, deep => by
    obtain ⟨d, deep, read⟩ := read?_jsonNode_obj (by decide) deep
    simp only [Json.membersNesting, Json.nesting] at deep
    simp only [doubles, List.forall_mem_append] at finite
    obtain ⟨d, rfl⟩ : ∃ d', d = d' + 1 := ⟨d - 1, by omega⟩
    have init := mapM_read? d finite.1.1.1 (by omega)
    have condition := Expr.optional?_toJson (d + 1) finite.1.1.2 (by omega)
    have update := mapM_read? d finite.1.2 (by omega)
    have body := optional?_toJson (d + 1) finite.2 (by omega)
    simp [toJson, read, readParts?, Json.slots?, List.lookup_cons, Json.Slot.orElse?, readAll?, init, condition,
      update, body]
  | .switch line e groups, finite, deep => by
    obtain ⟨d, deep, read⟩ := read?_jsonNode_obj (by decide) deep
    simp only [Json.membersNesting, Json.nesting] at deep
    simp only [doubles, List.forall_mem_append] at finite
    obtain ⟨d, rfl⟩ : ∃ d', d = d' + 1 := ⟨d - 1, by omega⟩
    have discriminant := Expr.read?_toJson (d + 1) finite.1 (by omega)
    have groups := mapM_readGroup? d finite.2 (by omega)
    simp [toJson, read, readParts?, Json.slots?, List.lookup_cons, Json.Slot.required?, readGroups?,
      discriminant, groups]
  | .breakOut line, _, deep => by
    obtain ⟨d, -, read⟩ := read?_jsonNode deep
    simp [toJson, read, readForm?, ofJsonName?]
  | .continueLoop line, _, deep => by
    obtain ⟨d, -, read⟩ := read?_jsonNode deep
    simp [toJson, read, readForm?, ofJsonName?]
  | .ret line value, finite, deep => by
    obtain ⟨d, deep, read⟩ := read?_jsonNode_obj (by decide) deep
    simp only [Json.membersNesting] at deep
    have value := Expr.optional?_toJson d finite (by omega)
    simp [toJson, read, readParts?, Json.slots?, List.lookup_cons, value]
  | .empty line, _, deep => by
    obtain ⟨d, -, read⟩ := read?_jsonNode deep
    simp [toJson, read, readForm?, ofJsonName?]

theorem mapM_read? (depth : Nat) : ∀ {ss : List Stmt}, (∀ x ∈ doublesAll ss, x.isFinite = true) →
    Json.itemsNesting (allToJson ss) ≤ depth → (allToJson ss).mapM (read? depth) = some ss
  | [], _, _ => rfl
  | s :: rest, finite, deep => by
    simp only [allToJson, Json.itemsNesting] at deep
    obtain ⟨finiteFirst, finiteRest⟩ := List.forall_mem_append.1 finite
    have first := read?_toJson depth finiteFirst (by omega)
    have others := mapM_read? depth finiteRest (by omega)
    simp [allToJson, first, others]

theorem optional?_toJson (depth : Nat) : ∀ {o : Option Stmt}, (∀ x ∈ doublesOption o, x.isFinite = true) →
    (optionToJson o).nesting ≤ depth →
    (Json.Slot.given (optionToJson o)).optional? (fun j => read? depth j) = some o
  | none, _, _ => rfl
  | some s, finite, deep => by
    have read := read?_toJson depth finite deep
    have present : (Json.Slot.given s.toJson).optional? (fun j => read? depth j) =
        (read? depth s.toJson).map some := by
      cases s <;> rfl
    rw [optionToJson, present, read]
    rfl

theorem mapM_readGroup? (depth : Nat) : ∀ {groups : List (SwitchGroup CaseLabel Stmt)},
    (∀ x ∈ doublesGroups groups, x.isFinite = true) → Json.itemsNesting (groupsToJson groups) ≤ depth →
    (groupsToJson groups).mapM (readGroup? depth) = some groups
  | [], _, _ => rfl
  | ⟨labels, stmts⟩ :: rest, finite, deep => by
    simp only [groupsToJson, Json.itemsNesting, Json.nesting, Json.membersNesting] at deep
    simp only [doublesGroups, List.forall_mem_append] at finite
    obtain ⟨d, rfl⟩ : ∃ d', depth = d' + 2 := ⟨depth - 2, by omega⟩
    have someLabels : (labels.map CaseLabel.toJson).mapM (CaseLabel.read? d) = some labels := by
      refine Json.mapM_map_eq_some fun l mem => CaseLabel.read?_toJson d (fun x hx => ?_) ?_
      · exact finite.1.1 x (List.mem_flatMap.2 ⟨l, mem, hx⟩)
      · have le := Json.nesting_le_itemsNesting (List.mem_map_of_mem (f := CaseLabel.toJson) mem)
        omega
    have someStmts := mapM_read? d finite.1.2 (by omega)
    have group : readGroup? (d + 2) (.obj [("labels", .arr (labels.map CaseLabel.toJson)),
        ("block", .arr (allToJson stmts))]) = some ⟨labels, stmts⟩ := by
      simp [readGroup?, Json.slots?, List.lookup_cons, Json.Slot.required?, Json.list?, Json.Slot.orElse?,
        readAll?, someLabels, someStmts]
    have others := mapM_readGroup? (d + 2) finite.2 (by omega)
    simp [groupsToJson, group, others]

end

end Stmt

end Source

theorem FieldDecl.read?_toJson (field : FieldDecl) {depth : Nat} (deep : field.toJson.nesting ≤ depth) :
    read? depth field.toJson = some field := by
  simp only [toJson, Json.nesting] at deep
  obtain ⟨d, rfl⟩ : ∃ d', depth = d' + 1 := ⟨depth - 1, by omega⟩
  simp [read?, toJson, Json.slots?, List.lookup_cons, Json.Slot.required?, Json.str?, Ty.read?_toJson]

/-- A program is read back from its value if the reader goes deep enough. -/
theorem Source.Program.read?_toJson {p : Program} (depth : Nat)
    (finite : ∀ x ∈ p.doubles, x.isFinite = true) (deep : p.toJson.nesting ≤ depth) :
    read? depth p.toJson = some p := by
  simp only [toJson, Json.nesting, Json.membersNesting] at deep
  obtain ⟨d, rfl⟩ : ∃ d', depth = d' + 2 := ⟨depth - 2, by omega⟩
  have fields : (p.fields.map FieldDecl.toJson).mapM (FieldDecl.read? d) = some p.fields := by
    refine Json.mapM_map_eq_some fun field mem => field.read?_toJson ?_
    have le := Json.nesting_le_itemsNesting (List.mem_map_of_mem (f := FieldDecl.toJson) mem)
    omega
  have returns : (Json.Slot.given (.ofOption Ty.toJson p.returns)).optionalOrElse? none (Ty.read? (d + 1)) =
      some p.returns := by
    cases p.returns with
    | none => rfl
    | some t =>
      simp [Json.Slot.optionalOrElse?, Json.Slot.orElse?, Json.ofOption, Ty.toJson, Ty.read?, Json.choice?]
  have body := Stmt.mapM_read? d finite (by omega)
  simp [toJson, read?, Json.slots?, List.lookup_cons, Json.Slot.required?, Json.str?, Json.Slot.orElse?,
    Json.list?, Stmt.readAll?, fields, returns, body]

/-! ## Scalars -/

variable {readsBack : Float → Prop}

theorem Json.fits_line (line : Line) : Fits line.toNat := by
  have := line.toNat_lt
  unfold Fits
  omega

theorem Literal.legible_toJson {v : Literal} (doubles : ∀ x ∈ v.doubles, Json.Legible readsBack (.double x)) :
    v.toJson.Each (Json.Legible readsBack) := by
  cases v with
  | int n =>
    have := n.le_toInt
    have := n.toInt_lt
    exact ⟨⟨by omega, by omega⟩, trivial⟩
  | long n =>
    have := n.le_toInt
    have := n.toInt_lt
    exact ⟨⟨by omega, by omega⟩, trivial⟩
  | double x => exact ⟨doubles x List.mem_cons_self, trivial⟩
  | bool b => exact ⟨trivial, trivial⟩

namespace Source

namespace Expr

theorem legible_jsonNode {line : Line} {form : String} {parts : Json} (legible : parts.Each (Json.Legible readsBack)) :
    (jsonNode line form parts).Each (Json.Legible readsBack) :=
  ⟨Json.fits_line line, ⟨legible, trivial⟩, trivial⟩

theorem legible_toJson {e : Expr} (doubles : ∀ x ∈ e.doubles, Json.Legible readsBack (.double x)) :
    e.toJson.Each (Json.Legible readsBack) := by
  induction e with
  | literal line v => exact legible_jsonNode (Literal.legible_toJson doubles)
  | var line name | field line name => exact legible_jsonNode trivial
  | unary line op e ih | step line op e ih => exact legible_jsonNode ⟨trivial, ih doubles, trivial⟩
  | binary line op l r ihl ihr =>
    obtain ⟨left, right⟩ := List.forall_mem_append.1 doubles
    exact legible_jsonNode ⟨trivial, ihl left, ihr right, trivial⟩
  | assign line t v iht ihv =>
    obtain ⟨target, value⟩ := List.forall_mem_append.1 doubles
    exact legible_jsonNode ⟨iht target, ihv value, trivial⟩

theorem legible_ofOption {o : Option Expr} (doubles : ∀ x ∈ o.elim [] doubles, Json.Legible readsBack (.double x)) :
    (Json.ofOption toJson o).Each (Json.Legible readsBack) := by
  cases o with
  | none => trivial
  | some e => exact legible_toJson doubles

end Expr

theorem CaseLabel.legible_toJson {l : CaseLabel} (doubles : ∀ x ∈ l.doubles, Json.Legible readsBack (.double x)) :
    l.toJson.Each (Json.Legible readsBack) := by
  cases l with
  | case e => exact ⟨Expr.legible_toJson doubles, trivial⟩
  | otherwise => trivial

namespace Stmt

theorem legible_jsonNode {line : Line} {kind : Json} (legible : kind.Each (Json.Legible readsBack)) :
    (jsonNode line kind).Each (Json.Legible readsBack) :=
  ⟨Json.fits_line line, legible, trivial⟩

mutual

theorem legible_toJson : ∀ {s : Stmt}, (∀ x ∈ s.doubles, Json.Legible readsBack (.double x)) →
    s.toJson.Each (Json.Legible readsBack)
  | .block line body, doubles => legible_jsonNode ⟨legible_allToJson doubles, trivial⟩
  | .declare line name ty init, doubles =>
    legible_jsonNode ⟨⟨trivial, trivial, Expr.legible_ofOption doubles, trivial⟩, trivial⟩
  | .expr line e, doubles => legible_jsonNode ⟨Expr.legible_toJson doubles, trivial⟩
  | .ifElse line c t e, doubles => by
    simp only [Stmt.doubles, List.forall_mem_append] at doubles
    obtain ⟨⟨condition, thenPart⟩, elsePart⟩ := doubles
    exact legible_jsonNode ⟨⟨Expr.legible_toJson condition, legible_toJson thenPart,
      legible_optionToJson elsePart, trivial⟩, trivial⟩
  | .whileDo line c body, doubles => by
    obtain ⟨condition, body⟩ := List.forall_mem_append.1 doubles
    exact legible_jsonNode ⟨⟨Expr.legible_toJson condition, legible_toJson body, trivial⟩, trivial⟩
  | .doWhile line body c, doubles => by
    obtain ⟨body, condition⟩ := List.forall_mem_append.1 doubles
    exact legible_jsonNode ⟨⟨legible_toJson body, Expr.legible_toJson condition, trivial⟩, trivial⟩
  | .forLoop line init c update body, doubles => by
    simp only [Stmt.doubles, List.forall_mem_append] at doubles
    obtain ⟨⟨⟨init, condition⟩, update⟩, body⟩ := doubles
    exact legible_jsonNode ⟨⟨legible_allToJson init, Expr.legible_ofOption condition, legible_allToJson update,
      legible_optionToJson body, trivial⟩, trivial⟩
  | .switch line d groups, doubles => by
    obtain ⟨discriminant, groups⟩ := List.forall_mem_append.1 doubles
    exact legible_jsonNode ⟨⟨Expr.legible_toJson discriminant, legible_groupsToJson groups, trivial⟩, trivial⟩
  | .breakOut line, _ => legible_jsonNode trivial
  | .continueLoop line, _ => legible_jsonNode trivial
  | .ret line value, doubles => legible_jsonNode ⟨⟨Expr.legible_ofOption doubles, trivial⟩, trivial⟩
  | .empty line, _ => legible_jsonNode trivial

theorem legible_allToJson : ∀ {ss : List Stmt}, (∀ x ∈ doublesAll ss, Json.Legible readsBack (.double x)) →
    Json.EachItem (Json.Legible readsBack) (allToJson ss)
  | [], _ => trivial
  | _ :: _, doubles => by
    obtain ⟨first, rest⟩ := List.forall_mem_append.1 doubles
    exact ⟨legible_toJson first, legible_allToJson rest⟩

theorem legible_optionToJson : ∀ {o : Option Stmt}, (∀ x ∈ doublesOption o, Json.Legible readsBack (.double x)) →
    (optionToJson o).Each (Json.Legible readsBack)
  | none, _ => trivial
  | some _, doubles => legible_toJson doubles

theorem legible_groupsToJson : ∀ {groups : List (SwitchGroup CaseLabel Stmt)},
    (∀ x ∈ doublesGroups groups, Json.Legible readsBack (.double x)) →
    Json.EachItem (Json.Legible readsBack) (groupsToJson groups)
  | [], _ => trivial
  | ⟨labels, stmts⟩ :: rest, doubles => by
    simp only [doublesGroups, List.forall_mem_append] at doubles
    obtain ⟨⟨labels, stmts⟩, rest⟩ := doubles
    refine ⟨⟨?_, legible_allToJson stmts, trivial⟩, legible_groupsToJson rest⟩
    refine Json.eachItem_iff.2 (List.forall_mem_map.2 fun l mem => ?_)
    exact CaseLabel.legible_toJson fun x hx => labels x (List.mem_flatMap.2 ⟨l, mem, hx⟩)

end

end Stmt

/-- The scalars of a program's value are read as they are written if its double constants are. -/
theorem Program.legible_toJson {p : Program} (doubles : ∀ x ∈ p.doubles, Json.Legible readsBack (.double x)) :
    p.toJson.Each (Json.Legible readsBack) := by
  have fields : Json.EachItem (Json.Legible readsBack) (p.fields.map FieldDecl.toJson) :=
    Json.eachItem_iff.2 (List.forall_mem_map.2 fun _ _ => ⟨trivial, trivial, trivial⟩)
  have returns : (Json.ofOption Ty.toJson p.returns).Each (Json.Legible readsBack) := by
    cases p.returns <;> trivial
  exact ⟨trivial, fields, returns, Stmt.legible_allToJson doubles, trivial⟩

end Source

end Stacklet
