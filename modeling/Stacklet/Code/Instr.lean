import Stacklet.Decimal.Style
import Stacklet.Operator
import Stacklet.Ty

/-!
# Instructions

The instructions of the stack machine. Every value takes one place on the stack and one local slot,
whatever its kind. Jumps carry offsets from the instruction itself. Beside the instructions stands
what is known of them without running them: how many values they take and leave, and where control
may go.
-/

namespace Stacklet

/-- An instruction. -/
inductive Instr where
  | iconst (value : Int32)
  | lconst (value : Int64)
  | dconst (value : Float)
  | load (kind : Kind) (slot : UInt16)
  | store (kind : Kind) (slot : UInt16)
  /-- Adds to a local in place, whatever its kind. -/
  | inc (slot : UInt16) (delta : Int32)
  | loadThis
  | getField (index : UInt16)
  /-- Takes the value and, below it, the receiver. -/
  | putField (index : UInt16)
  | dup
  /-- Puts a copy of the top below the value under it. -/
  | dupX1
  | pop
  | arith (op : ArithOp) (kind : Kind)
  | neg (kind : Kind)
  | lcmp
  /-- Compares doubles; the result is -1 when one is not a number. -/
  | dcmpl
  /-- Compares doubles; the result is 1 when one is not a number. -/
  | dcmpg
  | goto (offset : Int32)
  /-- Jumps when the condition holds of an int and zero. -/
  | ifZero (cond : Cond) (offset : Int32)
  /-- Jumps when the condition holds of two ints. -/
  | ifCompare (cond : Cond) (offset : Int32)
  /-- Jumps by the entry for an int, counted from `low`. -/
  | tableSwitch (low other : Int32) (offsets : Array Int32)
  /-- Jumps by the offset paired with an int. -/
  | lookupSwitch (other : Int32) (pairs : List (Int32 × Int32))
  | ret
  | retValue (kind : Kind)
deriving BEq

namespace Instr

/-- The number of values taken from the stack. -/
def pops : Instr → Nat
  | .iconst _ | .lconst _ | .dconst _ | .load .. | .loadThis | .inc .. | .goto _ | .ret => 0
  | .store .. | .pop | .ifZero .. | .retValue _ | .tableSwitch .. | .lookupSwitch ..
  | .getField _ | .neg _ | .dup => 1
  | .putField _ | .ifCompare .. | .dupX1 | .arith .. | .lcmp | .dcmpl | .dcmpg => 2

/-- The number of values left on the stack. -/
def pushes : Instr → Nat
  | .inc .. | .goto _ | .ret | .store .. | .pop | .ifZero .. | .retValue _ | .tableSwitch ..
  | .lookupSwitch .. | .putField _ | .ifCompare .. => 0
  | .iconst _ | .lconst _ | .dconst _ | .load .. | .loadThis | .getField _ | .neg _ | .arith ..
  | .lcmp | .dcmpl | .dcmpg => 1
  | .dup => 2
  | .dupX1 => 3

/-- Whether control may go on to the next instruction. -/
def fallsThrough : Instr → Bool
  | .goto _ | .tableSwitch .. | .lookupSwitch .. | .ret | .retValue _ => false
  | _ => true

/-- The offsets by which control may jump; that of a switch for all other values comes first. -/
def offsets : Instr → List Int32
  | .goto offset | .ifZero _ offset | .ifCompare _ offset => [offset]
  | .tableSwitch _ other offsets => other :: offsets.toList
  | .lookupSwitch other pairs => other :: pairs.map (·.2)
  | _ => []

/-- Whether the instruction may jump. -/
def isBranch (i : Instr) : Bool := !i.offsets.isEmpty

/-- Doubles keep a point, and have an exponent below `1e-4` and from `1e16` on. -/
def doubleStyle : Decimal.Style where
  positional := some (-4, 15)
  keepsPoint := true
  plus := false
  tie := .up

/-- An offset as it is shown: as the index that it leads to from a position, or, without one, with
its sign. -/
def targetText (position : Option Nat) (offset : Int32) : String :=
  match position with
  | some pc => toString (pc + offset.toInt)
  | none => (if 0 ≤ offset.toInt then "+" else "") ++ toString offset.toInt

/-- The arms of a switch as they are shown. -/
def armsText (position : Option Nat) (arms : List (Int × Int32)) : String :=
  ", ".intercalate (arms.map fun (key, offset) => toString key ++ ": " ++ targetText position offset)

/-- An instruction as it is shown, with the targets of jumps as indices when its position is known. -/
def text (position : Option Nat) : Instr → String
  | .iconst v => "iconst " ++ toString v.toInt
  | .lconst v => "lconst " ++ toString v.toInt
  | .dconst v => "dconst " ++ doubleStyle.write v
  | .load kind slot => kind.letter ++ "load " ++ toString slot.toNat
  | .store kind slot => kind.letter ++ "store " ++ toString slot.toNat
  | .inc slot delta => "inc " ++ toString slot.toNat ++ " " ++ toString delta.toInt
  | .loadThis => "load_this"
  | .getField index => "getfield " ++ toString index.toNat
  | .putField index => "putfield " ++ toString index.toNat
  | .dup => "dup"
  | .dupX1 => "dup_x1"
  | .pop => "pop"
  | .arith op kind => kind.letter ++ op.mnemonic
  | .neg kind => kind.letter ++ "neg"
  | .lcmp => "lcmp"
  | .dcmpl => "dcmpl"
  | .dcmpg => "dcmpg"
  | .goto offset => "goto " ++ targetText position offset
  | .ifZero cond offset => "if" ++ cond.mnemonic ++ " " ++ targetText position offset
  | .ifCompare cond offset => "if_icmp" ++ cond.mnemonic ++ " " ++ targetText position offset
  | .tableSwitch low other offsets =>
    let arms := offsets.toList.zipIdx.map fun (offset, i) => (low.toInt + i, offset)
    "tableswitch \x7b " ++ armsText position arms ++ ", default: " ++ targetText position other
      ++ " \x7d"
  | .lookupSwitch other pairs =>
    let arms := pairs.map fun (key, offset) => (key.toInt, offset)
    "lookupswitch \x7b " ++ (if arms.isEmpty then "" else armsText position arms ++ ", ")
      ++ "default: " ++ targetText position other ++ " \x7d"
  | .ret => "return"
  | .retValue kind => kind.letter ++ "return"

end Instr

end Stacklet
