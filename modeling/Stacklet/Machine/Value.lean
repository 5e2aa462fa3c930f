import Stacklet.Code.Instr
import Stacklet.Json.Basic

/-!
# Values

What the machine computes with: numbers of the three kinds, and the receiver, which is the only
reference.
-/

namespace Stacklet

/-- A value of the machine. -/
inductive Value where
  | int (value : Int32)
  | long (value : Int64)
  | double (value : Float)
  | ref
deriving BEq

namespace Value

/-- The kind of a number. -/
def kind? : Value → Option Kind
  | .int _ => some .int
  | .long _ => some .long
  | .double _ => some .double
  | .ref => none

/-- The zero of a kind. -/
def zero : Kind → Value
  | .int => .int 0
  | .long => .long 0
  | .double => .double 0.0

/-- A value as it is shown. -/
def text : Value → String
  | .int v => toString v.toInt
  | .long v => toString v.toInt ++ "L"
  | .double v => Instr.doubleStyle.write v
  | .ref => "this"

/-- A value as it is shown in a message, with its kind. -/
def describe : Value → String
  | .int v => "Int(" ++ toString v.toInt ++ ")"
  | .long v => "Long(" ++ toString v.toInt ++ ")"
  | .double v => "Double(" ++ Instr.doubleStyle.write v ++ ")"
  | .ref => "Ref"

/-- A value is written under the name of its kind. -/
def toJson : Value → Json
  | .int v => .obj [("int", .int v.toInt)]
  | .long v => .obj [("long", .int v.toInt)]
  | .double v => .obj [("double", if v.isFinite then .double v else .null)]
  | .ref => .str "ref"

end Value

end Stacklet
