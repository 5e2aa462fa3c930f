import Stacklet.Json.Basic

/-!
# Numbers in JSON text

A number keeps as many leading digits as fit 64 bits; the digits after them count only for the
magnitude. A whole number that fits is exact. Any other is the double of its kept digits, multiplied
or divided by one power of ten; for up to fifteen digits and powers up to the twenty-second this is
the nearest double.
-/

namespace Stacklet.Json

/-- A number as kept: `significand * 10 ^ exponent`. -/
structure Numeral where
  significand : Nat
  exponent : Int

namespace Numeral

/-- The value of a decimal digit. -/
def digit (c : Char) : Nat := c.toNat - '0'.toNat

/-- Whether another digit still fits 64 bits. -/
def fits (significand : Nat) (c : Char) : Bool := decide (significand * 10 + digit c < UInt64.size)

/-- Takes up the digits before the point; those that no longer fit raise the exponent. -/
def takeWhole (n : Numeral) : List Char → Numeral
  | [] => n
  | c :: cs =>
    if fits n.significand c then takeWhole { n with significand := n.significand * 10 + digit c } cs
    else { n with exponent := n.exponent + (c :: cs).length }

/-- Takes up the digits after the point, up to the first that no longer fits. -/
def takeFraction (n : Numeral) : List Char → Numeral
  | [] => n
  | c :: cs =>
    if fits n.significand c then
      takeFraction ⟨n.significand * 10 + digit c, n.exponent - 1⟩ cs
    else n

/-- The power of ten as a double. -/
def powerOfTen (n : Nat) : Float := Float.ofScientific 1 false n

/-- The greatest power of ten that is a double. -/
def maxPower : Nat := 308

/-- A double times a power of ten. Beyond the range of doubles the result is infinite or zero. -/
def scale (x : Float) (exponent : Int) : Float :=
  if x == 0 then x
  else if maxPower < exponent then 1.0 / 0.0
  else if 0 ≤ exponent then x * powerOfTen exponent.toNat
  else if -maxPower ≤ exponent then x / powerOfTen (-exponent).toNat
  else scale (x / powerOfTen maxPower) (exponent + maxPower)
termination_by (-exponent).toNat
decreasing_by simp only [maxPower] at *; omega

/-- The double of a number. -/
def toFloat (n : Numeral) : Float := scale (UInt64.ofNat n.significand).toFloat n.exponent

/-- The value of a run of digits. -/
def ofDigits (cs : List Char) : Nat := cs.foldl (fun n c => n * 10 + digit c) 0

/-- The sign in front of an exponent, and what follows it. -/
def exponentSign : List Char → Bool × List Char
  | '+' :: cs => (false, cs)
  | '-' :: cs => (true, cs)
  | cs => (false, cs)

/-- The exponent of a number, when the text is one with its mark. -/
def exponent? : List Char → Option Int
  | 'e' :: cs | 'E' :: cs =>
    let (negative, digits) := exponentSign cs
    if digits.isEmpty || !digits.all Char.isDigit then none
    else if negative then some (-(ofDigits digits : Int)) else some (ofDigits digits)
  | _ => none

/-- A whole number: exact if it fits 64 bits with its sign, else a double. There is no whole number
minus zero. -/
def whole (negative : Bool) (n : Nat) : Json :=
  if !negative then .int n
  else if n = 0 ∨ 1 <<< 63 < n then .double (-(UInt64.ofNat n).toFloat)
  else .int (-n)

/-- A number without its sign. -/
def unsigned? (negative : Bool) (cs : List Char) : Option Json :=
  let digits := cs.takeWhile Char.isDigit
  let rest := cs.dropWhile Char.isDigit
  let kept := takeWhole ⟨0, 0⟩ digits
  let real (n : Numeral) : Json := .double (if negative then -n.toFloat else n.toFloat)
  if digits.isEmpty || (digits.head? == some '0' && digits.length != 1) then none
  else match rest with
    | [] => if kept.exponent = 0 then some (whole negative kept.significand) else some (real kept)
    | '.' :: rest =>
      let fraction := rest.takeWhile Char.isDigit
      let tail := rest.dropWhile Char.isDigit
      let kept := takeFraction kept fraction
      if fraction.isEmpty then none
      else if tail.isEmpty then some (real kept)
      else (exponent? tail).map fun e => real { kept with exponent := kept.exponent + e }
    | _ => (exponent? rest).map fun e => real { kept with exponent := kept.exponent + e }

/-- A number, from its sign to its last character. -/
def read? : List Char → Option Json
  | '-' :: cs => unsigned? true cs
  | cs => unsigned? false cs

end Numeral

end Stacklet.Json
