import Stacklet.Code.Basic
import Stacklet.Source.Json

/-!
# Code in JSON

The written form of code, with the rules of `Stacklet.Json.Decode`. All members of code are required.
-/

namespace Stacklet

namespace Kind

/-- The kind of a name. -/
def ofName? : String → Option Kind
  | "int" => some .int
  | "long" => some .long
  | "double" => some .double
  | _ => none

/-- A kind is written as its name. -/
def toJson (k : Kind) : Json := .str k.name

/-- Reads a kind. -/
def read? (depth : Nat) (j : Json) : Option Kind := j.choice? ofName? depth

end Kind

namespace Cond

/-- The condition of a name. -/
def ofName? : String → Option Cond
  | "eq" => some .eq
  | "ne" => some .ne
  | "lt" => some .lt
  | "ge" => some .ge
  | "gt" => some .gt
  | "le" => some .le
  | _ => none

/-- A condition is written as its name. -/
def toJson (c : Cond) : Json := .str c.mnemonic

/-- Reads a condition. -/
def read? (depth : Nat) (j : Json) : Option Cond := j.choice? ofName? depth

end Cond

namespace Instr

/-- A double, of which only the finite ones have a written form. -/
def doubleToJson (x : Float) : Json := if x.isFinite then .double x else .null

/-- A slot, or the index of a field. -/
def wordToJson (n : UInt16) : Json := .nat n.toNat

/-- An offset, or another signed number of an instruction. -/
def offsetToJson (n : Int32) : Json := .int n.toInt

/-- An instruction is written as its name, with what it carries. -/
def toJson : Instr → Json
  | .iconst v => .obj [("i_const", .int v.toInt)]
  | .lconst v => .obj [("l_const", .int v.toInt)]
  | .dconst v => .obj [("d_const", doubleToJson v)]
  | .load kind slot => .obj [("load", .arr [kind.toJson, wordToJson slot])]
  | .store kind slot => .obj [("store", .arr [kind.toJson, wordToJson slot])]
  | .inc slot delta => .obj [("inc", .obj [("slot", wordToJson slot), ("delta", offsetToJson delta)])]
  | .loadThis => .str "load_this"
  | .getField index => .obj [("get_field", wordToJson index)]
  | .putField index => .obj [("put_field", wordToJson index)]
  | .dup => .str "dup"
  | .dupX1 => .str "dup_x1"
  | .pop => .str "pop"
  | .arith op kind => .obj [(op.mnemonic, kind.toJson)]
  | .neg kind => .obj [("neg", kind.toJson)]
  | .lcmp => .str "l_cmp"
  | .dcmpl => .str "d_cmp_l"
  | .dcmpg => .str "d_cmp_g"
  | .goto offset => .obj [("goto", offsetToJson offset)]
  | .ifZero cond offset => .obj [("if", .arr [cond.toJson, offsetToJson offset])]
  | .ifCompare cond offset => .obj [("if_i_cmp", .arr [cond.toJson, offsetToJson offset])]
  | .tableSwitch low other offsets =>
    .obj [("table_switch", .obj [("low", offsetToJson low), ("default", offsetToJson other),
      ("offsets", .arr (offsets.toList.map offsetToJson))])]
  | .lookupSwitch other pairs =>
    .obj [("lookup_switch", .obj [("default", offsetToJson other),
      ("pairs", .arr (pairs.map fun (key, offset) => .arr [offsetToJson key, offsetToJson offset]))])]
  | .ret => .str "return"
  | .retValue kind => .obj [("return_value", kind.toJson)]

/-- The instruction that carries nothing and has a name. -/
def ofName? : String → Option Instr
  | "load_this" => some .loadThis
  | "dup" => some .dup
  | "dup_x1" => some .dupX1
  | "pop" => some .pop
  | "l_cmp" => some .lcmp
  | "d_cmp_l" => some .dcmpl
  | "d_cmp_g" => some .dcmpg
  | "return" => some .ret
  | _ => none

/-- Reads an array of two. -/
def readPair? {α β : Type} (first : Nat → Json → Option α) (second : Json → Option β) :
    Nat → Json → Option (α × β)
  | depth + 1, .arr [a, b] => do return (← first depth a, ← second b)
  | _, _ => none

/-- Reads what an instruction carries. -/
def readParts? (name : String) (depth : Nat) (j : Json) : Option Instr :=
  match name with
  | "i_const" => j.i32?.map .iconst
  | "l_const" => j.i64?.map .lconst
  | "d_const" => j.f64?.map .dconst
  | "load" => (readPair? Kind.read? Json.u16? depth j).map fun (kind, slot) => .load kind slot
  | "store" => (readPair? Kind.read? Json.u16? depth j).map fun (kind, slot) => .store kind slot
  | "inc" => do
    let [slot, delta] ← (if depth = 0 then none else j.slots? ["slot", "delta"]) | none
    return .inc (← slot.required? Json.u16?) (← delta.required? Json.i32?)
  | "get_field" => j.u16?.map .getField
  | "put_field" => j.u16?.map .putField
  | "add" => (Kind.read? depth j).map (.arith .add)
  | "sub" => (Kind.read? depth j).map (.arith .sub)
  | "mul" => (Kind.read? depth j).map (.arith .mul)
  | "div" => (Kind.read? depth j).map (.arith .div)
  | "rem" => (Kind.read? depth j).map (.arith .rem)
  | "neg" => (Kind.read? depth j).map .neg
  | "goto" => j.i32?.map .goto
  | "if" => (readPair? Cond.read? Json.i32? depth j).map fun (cond, offset) => .ifZero cond offset
  | "if_i_cmp" =>
    (readPair? Cond.read? Json.i32? depth j).map fun (cond, offset) => .ifCompare cond offset
  | "table_switch" => do
    let [low, other, offsets] ← (if depth = 0 then none else j.slots? ["low", "default", "offsets"])
      | none
    let offsets ← offsets.required? (Json.list? (fun _ => Json.i32?) (depth - 1))
    return .tableSwitch (← low.required? Json.i32?) (← other.required? Json.i32?) offsets.toArray
  | "lookup_switch" => do
    let [other, pairs] ← (if depth = 0 then none else j.slots? ["default", "pairs"]) | none
    return .lookupSwitch (← other.required? Json.i32?)
      (← pairs.required? (Json.list? (readPair? (fun _ => Json.i32?) Json.i32?) (depth - 1)))
  | "return_value" => (Kind.read? depth j).map .retValue
  | _ => none

/-- Reads an instruction. -/
def read? : Nat → Json → Option Instr
  | _, .str name | _ + 1, .obj [(name, .null)] => ofName? name
  | depth + 1, .obj [(name, parts)] => readParts? name depth parts
  | _, _ => none

end Instr

namespace Code

/-- Code is written with all its members. -/
def toJson (code : Code) : Json :=
  .obj [("name", .str code.name), ("ops", .arr (code.instrs.toList.map Instr.toJson)),
    ("max_stack", .nat code.maxStack.toNat), ("max_locals", .nat code.maxLocals.toNat),
    ("fields", .arr (code.fields.map FieldDecl.toJson))]

/-- Reads code at a depth of nesting. -/
def read? : Nat → Json → Option Code
  | 0, _ => none
  | depth + 1, j => do
    let [name, instrs, maxStack, maxLocals, fields] ←
      j.slots? ["name", "ops", "max_stack", "max_locals", "fields"] | none
    return {
      name := ← name.required? Json.str?
      instrs := (← instrs.required? (Json.list? Instr.read? depth)).toArray
      maxStack := ← maxStack.required? Json.u16?
      maxLocals := ← maxLocals.required? Json.u16?
      fields := ← fields.required? (Json.list? FieldDecl.read? depth) }

/-- The code of a JSON value. -/
def ofJson? (j : Json) : Option Code := read? Json.maxDepth j

end Code

end Stacklet
