/-!
# Doubles taken apart

A finite double is a sign and a whole mantissa times a power of two. `Parts.ofFloat` reads these off
the bits and `Parts.assemble` puts them back; in between, computations are exact ones on naturals.
The remainder of two doubles is such a computation: it is always a double, so nothing is rounded.
-/

namespace Stacklet.Decimal

/-- What a double stands for: `mantissa * 2 ^ exponent` with its sign, or one of the exceptions. -/
inductive Parts where
  | nan
  | infinite (negative : Bool)
  | finite (negative : Bool) (mantissa : Nat) (exponent : Int)
deriving DecidableEq

namespace Parts

/-- The least exponent of a double. -/
def minExponent : Int := -1074

/-- The parts of a double, read off its bits. -/
def ofFloat (x : Float) : Parts :=
  let bits := x.toBits.toNat
  let negative := bits >>> 63 == 1
  let biased : Nat := (bits >>> 52) % 2048
  let fraction : Nat := bits % (1 <<< 52)
  if biased = 2047 then
    if fraction = 0 then .infinite negative else .nan
  else if biased = 0 then .finite negative fraction minExponent
  else .finite negative ((1 <<< 52) + fraction) (minExponent + (biased : Int) - 1)

/-- The double with the given sign that is exactly `mantissa * 2 ^ exponent`, for a mantissa below
`2 ^ 53` and an exponent not below the least. -/
def assemble (negative : Bool) (mantissa : Nat) (exponent : Int) : Float :=
  let sign := if negative then 1 <<< 63 else 0
  -- the least shift that either fills the mantissa or reaches the least exponent
  let shift := min (52 - mantissa.log2) (exponent - minExponent).toNat
  let filled := mantissa <<< shift
  let magnitude :=
    if filled < 1 <<< 52 then filled
    else ((exponent - shift - minExponent).toNat <<< 52) + filled
  Float.ofBits (UInt64.ofNat (sign + magnitude))

end Parts

/-- The remainder of a division that truncates toward zero. It has the sign of the dividend, and it
is not a number when the dividend is infinite or the divisor is zero. -/
def remainder (a b : Float) : Float :=
  match Parts.ofFloat a, Parts.ofFloat b with
  | .finite negative m p, .finite _ n q =>
    if n = 0 then 0.0 / 0.0
    else
      let least := min p q
      Parts.assemble negative ((m <<< (p - least).toNat) % (n <<< (q - least).toNat)) least
  | .finite .., .infinite _ => a
  | _, _ => 0.0 / 0.0

/-- The digits of a whole double, all of them, or nothing when it has a fraction. -/
def wholeDigits? (mantissa : Nat) (exponent : Int) : Option Nat :=
  if 0 ≤ exponent then some (mantissa <<< exponent.toNat)
  else
    let unit := 1 <<< (-exponent).toNat
    if mantissa % unit = 0 then some (mantissa / unit) else none

end Stacklet.Decimal
