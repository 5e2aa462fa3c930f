import Stacklet.Decimal.Shortest

/-!
# Writing doubles

A `Style` holds the decisions of one written form: which magnitudes are written positionally, whether
a whole number keeps its point, how an exponent is signed and how ties go. The digits are always the
fewest that read back.
-/

namespace Stacklet.Decimal

/-- The decisions of a written form of doubles. -/
structure Style where
  /-- The exponents of the first digit that are written positionally; none stands for all. -/
  positional : Option (Int × Int)
  /-- Whether a whole number written positionally ends in `.0`. -/
  keepsPoint : Bool
  /-- Whether an exponent that is not negative has a plus sign. -/
  plus : Bool
  /-- Which of two equally near decimals is written. -/
  tie : Tie

/-- A run of zeros. -/
def zeros (n : Nat) : String := "".pushn '0' n

namespace Style

/-- A decimal written with a point and without an exponent. -/
def writePositional (s : Style) (digits : String) (exponent : Int) : String :=
  let count := digits.length
  let places := (-exponent).toNat
  if 0 ≤ exponent then digits ++ zeros exponent.toNat ++ (if s.keepsPoint then ".0" else "")
  else if places < count then
    (digits.take (count - places)).toString ++ "." ++ (digits.drop (count - places)).toString
  else "0." ++ zeros (places - count) ++ digits

/-- A decimal written with one digit before the point and a power of ten. -/
def writeScientific (s : Style) (digits : String) (first : Int) : String :=
  let rest := (digits.drop 1).toString
  let point := if rest.isEmpty then "" else "." ++ rest
  let sign := if 0 ≤ first && s.plus then "+" else ""
  (digits.take 1).toString ++ point ++ "e" ++ sign ++ toString first

/-- A decimal in the form that its magnitude asks for. -/
def writeDigits (s : Style) (d : Digits) : String :=
  let digits := toString d.digits
  let first := d.exponent + digits.length - 1
  let positional := match s.positional with
    | none => true
    | some (least, most) => decide (least ≤ first ∧ first ≤ most)
  if positional then s.writePositional digits d.exponent else s.writeScientific digits first

/-- A double in the style. -/
def write (s : Style) (x : Float) : String :=
  match Parts.ofFloat x with
  | .nan => "NaN"
  | .infinite negative => if negative then "-inf" else "inf"
  | .finite negative mantissa exponent =>
    let digits := if mantissa = 0 then ⟨0, 0⟩ else shortest s.tie mantissa exponent
    (if negative then "-" else "") ++ s.writeDigits digits

end Style

end Stacklet.Decimal
