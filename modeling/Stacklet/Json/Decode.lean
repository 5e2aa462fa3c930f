import Stacklet.Json.Basic

/-!
# Typed data in JSON

Rules for reading typed data, shared by all types that have a JSON form.

* A record is an object whose known members occur at most once and whose other members are ignored,
  or an array with the members in order.
* A choice without data is its name, or an object whose one member has that name and the value null.
* Integers have a range and are written without a fraction or an exponent.

Readers of nested data take the depth of nesting that they may still use; every object and every
array takes one level of it, ignored values excepted.
-/

namespace Stacklet.Json

/-- The deepest nesting of objects and arrays in typed data. -/
def maxDepth : Nat := 127

/-- What a record gives for one of its members. -/
inductive Slot where
  | given (value : Json)
  /-- The member is missing from an object. -/
  | absent
  /-- The member lies past the end of an array. -/
  | cut

namespace Slot

/-- A member that has to be there. -/
def required? {α : Type} (s : Slot) (read : Json → Option α) : Option α :=
  match s with
  | .given value => read value
  | .absent | .cut => none

/-- A member that may be missing from an object, and may be null. -/
def optional? {α : Type} (s : Slot) (read : Json → Option α) : Option (Option α) :=
  match s with
  | .given .null | .absent => some none
  | .given value => (read value).map some
  | .cut => none

/-- A member that has a value when it is missing. -/
def orElse? {α : Type} (s : Slot) (missing : α) (read : Json → Option α) : Option α :=
  match s with
  | .given value => read value
  | .absent | .cut => some missing

/-- A member that has a value when it is missing, and may be null. -/
def optionalOrElse? {α : Type} (s : Slot) (missing : Option α) (read : Json → Option α) :
    Option (Option α) :=
  s.orElse? missing fun
    | .null => some none
    | value => (read value).map some

end Slot

/-- The members of a record, in the order of their names. -/
def slots? (names : List String) : Json → Option (List Slot)
  | .obj members =>
    if names.all fun name => decide ((members.filter fun m => m.1 == name).length ≤ 1) then
      some (names.map fun name => (members.lookup name).elim .absent .given)
    else none
  | .arr items =>
    if items.length ≤ names.length then
      some (items.map .given ++ List.replicate (names.length - items.length) .cut)
    else none
  | _ => none

/-- A truth value. -/
def bool? : Json → Option Bool
  | .bool b => some b
  | _ => none

/-- A string. -/
def str? : Json → Option String
  | .str s => some s
  | _ => none

/-- An integer in a range. -/
def intIn? (least most : Int) : Json → Option Int
  | .int n => if least ≤ n ∧ n ≤ most then some n else none
  | _ => none

/-- A natural number of 16 bits. -/
def u16? (j : Json) : Option UInt16 := (j.intIn? 0 65535).map fun n => UInt16.ofNat n.toNat

/-- A natural number of 32 bits. -/
def u32? (j : Json) : Option UInt32 := (j.intIn? 0 4294967295).map fun n => UInt32.ofNat n.toNat

/-- A natural number of 64 bits. -/
def u64? (j : Json) : Option Nat := (j.intIn? 0 18446744073709551615).map Int.toNat

/-- An integer of 32 bits. -/
def i32? (j : Json) : Option Int32 := (j.intIn? (-2147483648) 2147483647).map Int32.ofInt

/-- An integer of 64 bits. -/
def i64? (j : Json) : Option Int64 :=
  (j.intIn? (-9223372036854775808) 9223372036854775807).map Int64.ofInt

/-- A double, which may be written as an integer. -/
def f64? : Json → Option Float
  | .int n => some (Float.ofInt n)
  | .double x => if x.isFinite then some x else none
  | _ => none

/-- A choice without data. -/
def choice? {α : Type} (named : String → Option α) : Nat → Json → Option α
  | _, .str name => named name
  | _ + 1, .obj [(name, .null)] => named name
  | _, _ => none

/-- The items of an array, each read at the level below. -/
def list? {α : Type} (read : Nat → Json → Option α) : Nat → Json → Option (List α)
  | depth + 1, .arr items => items.mapM (read depth)
  | _, _ => none

end Stacklet.Json
