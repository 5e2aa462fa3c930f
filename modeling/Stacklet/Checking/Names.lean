import Std.Data.TreeMap
import Stacklet.Typed.Basic

/-!
# Names in scope

Locals live in nested scopes, over the fields of the receiver. A local takes the next free slot when
it is declared and keeps it to the end of the program. Slot 0 holds the receiver. Slots are numbers
of 16 bits; when they run out, every further local gets the last one.
-/

namespace Stacklet

/-- The locals declared in one scope. -/
abbrev Scope := Std.TreeMap String LocalVar

/-- The names that a program may use at some point. There is always an innermost scope. -/
structure Names where
  fields : Std.TreeMap String FieldRef
  innermost : Scope
  outer : List Scope
  nextSlot : UInt16

namespace Names

/-- The names at the start of a program without fields. -/
def empty : Names := ⟨∅, ∅, [], 1⟩

/-- The next slot after one, or the last one again. -/
def slotAfter (slot : UInt16) : UInt16 := if slot = 65535 then slot else slot + 1

/-- Adds a field, unless its name is taken. -/
def addField? (names : Names) (index : UInt16) (field : FieldDecl) : Option Names :=
  if field.name ∈ names.fields then none
  else some { names with fields := names.fields.insert field.name ⟨index, field.ty⟩ }

/-- Opens a scope. -/
def openScope (names : Names) : Names :=
  { names with innermost := ∅, outer := names.innermost :: names.outer }

/-- Closes the innermost scope, unless it is the only one. -/
def closeScope (names : Names) : Names :=
  match names.outer with
  | [] => names
  | scope :: outer => { names with innermost := scope, outer := outer }

/-- Declares a local in the innermost scope, unless its name is taken there. -/
def declare? (names : Names) (name : String) (ty : Ty) : Option (LocalVar × Names) :=
  if name ∈ names.innermost then none
  else
    let var : LocalVar := ⟨names.nextSlot, ty⟩
    some (var, { names with innermost := names.innermost.insert name var,
                            nextSlot := slotAfter names.nextSlot })

/-- The open scopes, the innermost first. -/
def scopes (names : Names) : List Scope := names.innermost :: names.outer

/-- The number of open scopes. -/
def depth (names : Names) : Nat := names.scopes.length

/-- The field of a name. -/
def field? (names : Names) (name : String) : Option FieldRef := names.fields[name]?

/-- The innermost local of a name. -/
def local? (names : Names) (name : String) : Option LocalVar := names.scopes.findSome? (·[name]?)

/-- What a name stands for: the innermost local, or else the field. -/
def lookup? (names : Names) (name : String) : Option Place :=
  match names.local? name with
  | some var => some (.ofLocal var)
  | none => (names.field? name).map .ofField

end Names

end Stacklet
