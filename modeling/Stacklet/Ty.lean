/-!
# Types and numeric kinds

The language has four types of values and the wildcard `any`, which stands for an expression whose
type is unknown. Numbers have a `Kind`, the representation the machine works with; every type has a
kind in which its values are stored.
-/

namespace Stacklet

/-- The representations of a number on the machine. -/
inductive Kind where
  | int
  | long
  | double
deriving DecidableEq

/-- The types of the language. `any` agrees with every type, so that a mistake is reported once and
not again at every use of its result. -/
inductive Ty where
  | int
  | long
  | double
  | boolean
  | any
deriving DecidableEq

namespace Ty

/-- The spelling of a type. -/
def name : Ty → String
  | .int => "int"
  | .long => "long"
  | .double => "double"
  | .boolean => "boolean"
  | .any => "any"

/-- The kind of a numeric type. -/
def kind? : Ty → Option Kind
  | .int => some .int
  | .long => some .long
  | .double => some .double
  | .boolean | .any => none

/-- Whether the type is one of numbers. -/
def isNumeric (t : Ty) : Bool := t.kind?.isSome

/-- The kind in which values of the type are kept: booleans are stored as ints. -/
def storage : Ty → Kind
  | .long => .long
  | .double => .double
  | .int | .boolean | .any => .int

/-- Equality of types up to the wildcard. -/
def agrees (t u : Ty) : Bool := t == u || t == .any || u == .any

end Ty

namespace Kind

/-- The type of the numbers of a kind. -/
def ty : Kind → Ty
  | .int => .int
  | .long => .long
  | .double => .double

/-- The spelling of a kind, that of its type. -/
def name (k : Kind) : String := k.ty.name

/-- The letter that marks the instructions of a kind. -/
def letter : Kind → String
  | .int => "i"
  | .long => "l"
  | .double => "d"

theorem kind?_ty (k : Kind) : k.ty.kind? = some k := by cases k <;> rfl


end Kind

/-- A numeric type is stored in its own kind. -/
theorem Ty.storage_of_kind? {t : Ty} {k : Kind} (h : t.kind? = some k) : t.storage = k := by
  cases t <;> cases k <;> simp_all [Ty.kind?, Ty.storage]

end Stacklet
