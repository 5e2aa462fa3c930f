import Stacklet.Code.Instr
import Stacklet.Source.Basic

/-!
# Code

The code of one program: its instructions, with the room that they need on the stack and for locals,
and the fields of the receiver.
-/

namespace Stacklet

/-- The code of a program. -/
structure Code where
  name : String
  instrs : Array Instr
  maxStack : UInt16
  maxLocals : UInt16
  fields : List FieldDecl
deriving BEq

namespace Code

/-- A number set to the right in four columns. -/
def padded (n : Nat) : String :=
  let digits := toString n
  "".pushn ' ' (4 - digits.length) ++ digits

/-- The code as it is shown: a line for every field and every instruction. -/
def listing (code : Code) : String :=
  "unit " ++ code.name ++ " (max_stack=" ++ toString code.maxStack.toNat ++ ", max_locals="
    ++ toString code.maxLocals.toNat ++ ")\n"
    ++ String.join (code.fields.zipIdx.map fun (field, i) =>
      "  field " ++ toString i ++ ": " ++ field.ty.name ++ " " ++ field.name ++ "\n")
    ++ String.join (code.instrs.toList.zipIdx.map fun (instr, pc) =>
      padded pc ++ ": " ++ instr.text (some pc) ++ "\n")

end Code

end Stacklet
