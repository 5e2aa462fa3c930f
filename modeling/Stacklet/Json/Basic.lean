/-!
# JSON values

A `Json` value keeps what a reader of typed data needs: whole numbers apart from doubles, members in
the order in which they were written, repeated keys included.
-/

namespace Stacklet

/-- A JSON value. -/
inductive Json where
  | null
  | bool (value : Bool)
  /-- A number written without a fraction or an exponent that fits 64 bits. -/
  | int (value : Int)
  /-- Any other number. One beyond the range of doubles is infinite here. -/
  | double (value : Float)
  | str (value : String)
  | arr (items : List Json)
  | obj (members : List (String × Json))
  /-- A string that is not a sequence of characters, for half a surrogate pair stands in it, or an
  object with such a key. It may be passed over, but it is no value of any type. -/
  | illFormed
deriving BEq, Inhabited

namespace Json

/-- A natural number. -/
def nat (n : Nat) : Json := .int n

/-- A value that may be absent. -/
def ofOption {α : Type} (encode : α → Json) : Option α → Json
  | none => .null
  | some a => encode a

end Json

end Stacklet
