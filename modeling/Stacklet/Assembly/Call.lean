import Stacklet.Code.Instr

/-!
# Assembly calls

Code is put together by a sequence of calls: to make a label, to bind one to the current position,
and to add an instruction, a jump or a switch. Labels are numbered from 0 in the order in which they
are made. A jump may refer to a label before or after it is bound.
-/

namespace Stacklet

/-- A label: a position in the code that is fixed when the label is bound. -/
structure Label where
  id : Nat
deriving DecidableEq

/-- A label as it is shown. -/
def Label.text (l : Label) : String := "L" ++ toString l.id

/-- The forms of a jump to one label. -/
inductive Jump where
  | goto
  | ifZero (cond : Cond)
  | ifCompare (cond : Cond)
deriving DecidableEq

namespace Jump

/-- The instruction for a jump. -/
def instr (j : Jump) (offset : Int32) : Instr :=
  match j with
  | .goto => .goto offset
  | .ifZero cond => .ifZero cond offset
  | .ifCompare cond => .ifCompare cond offset

/-- A jump as it is shown. -/
def text : Jump → String
  | .goto => "goto"
  | .ifZero cond => "if" ++ cond.mnemonic
  | .ifCompare cond => "if_icmp" ++ cond.mnemonic

end Jump

/-- A call to assemble code. -/
inductive Call where
  /-- Makes the next label. -/
  | makeLabel
  /-- Binds a label to the current position. -/
  | bind (label : Label)
  /-- Adds an instruction that refers to no label. -/
  | add (instr : Instr)
  /-- Adds an `inc`. -/
  | inc (slot : UInt16) (delta : Int32)
  /-- Adds a jump. -/
  | jump (jump : Jump) (target : Label)
  /-- Adds a switch: each key leads to the label at its place in the list, and every other int to
  the label `other`. -/
  | switch (keys : List Int32) (labels : List Label) (other : Label)

namespace Call

/-- A list as it is shown. -/
def listText (items : List String) : String := "[" ++ ",".intercalate items ++ "]"

/-- A call as it is shown, after a number of labels have been made. -/
def text (made : Nat) : Call → String
  | .makeLabel => "label " ++ (Label.mk made).text
  | .bind l => "bind " ++ l.text
  | .add instr => "add " ++ instr.text none
  | .inc slot delta => "inc " ++ toString slot.toNat ++ " " ++ toString delta.toInt
  | .jump j target => j.text ++ " " ++ target.text
  | .switch keys labels other =>
    "switch " ++ listText (keys.map fun k => toString k.toInt) ++ " "
      ++ listText (labels.map Label.text) ++ " " ++ other.text

/-- The number of labels that a call makes. -/
def labelsMade : Call → Nat
  | .makeLabel => 1
  | _ => 0

/-- Calls as they are shown, after a number of labels have been made. -/
def texts (made : Nat) : List Call → List String
  | [] => []
  | call :: rest => call.text made :: texts (made + call.labelsMade) rest

end Call

end Stacklet
