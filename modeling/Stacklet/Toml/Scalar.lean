/-!
# Numbers, truth values and dates in TOML

What a word of a TOML value stands for. Underscores may stand between digits. Dates and times are
checked and not kept, since nothing asks for them.
-/

namespace Stacklet.Toml

/-- A value without parts. -/
inductive Scalar where
  | int (value : Int)
  | float (value : Float)
  | bool (value : Bool)
  | date
  /-- A number too large to be given, which does no harm where nothing asks for it. -/
  | tooLarge

namespace Scalar

/-- The digits of a run in which underscores stand between digits only. -/
def digitRun? (isDigit : Char → Bool) (afterDigit : Bool) : List Char → Option (List Char)
  | [] => if afterDigit then some [] else none
  | '_' :: cs => if afterDigit then digitRun? isDigit false cs else none
  | c :: cs => if isDigit c then (digitRun? isDigit true cs).map (c :: ·) else none

/-- The value of a digit in any base up to sixteen. -/
def digit (c : Char) : Nat :=
  if c ≤ '9' then c.toNat - '0'.toNat else c.toLower.toNat - 'a'.toNat + 10

/-- The value of digits in a base. -/
def ofDigits (base : Nat) (cs : List Char) : Nat := cs.foldl (fun n c => n * base + digit c) 0

/-- Whether a character is a hexadecimal digit. -/
def isHexDigit (c : Char) : Bool := c.isDigit || ('a' ≤ c.toLower && c.toLower ≤ 'f')

/-- The sign of a number, and what follows it. -/
def signed : List Char → Bool × List Char
  | '+' :: cs => (false, cs)
  | '-' :: cs => (true, cs)
  | cs => (false, cs)

/-- The digits of a decimal number, which has no needless zero in front. -/
def decimalDigits? (cs : List Char) : Option (List Char) := do
  let digits ← digitRun? Char.isDigit false cs
  if digits.head? == some '0' && digits.length != 1 then none else some digits

/-- Whether an integer lies in the range of those that can be given. -/
def isReadable (n : Int) : Bool := decide (-Int.pow 2 127 ≤ n ∧ n < Int.pow 2 128)

/-- An integer. -/
def int? : List Char → Option Int
  | '0' :: 'x' :: cs => (digitRun? isHexDigit false cs).map fun ds => (ofDigits 16 ds : Int)
  | '0' :: 'o' :: cs =>
    (digitRun? (fun c => '0' ≤ c && c ≤ '7') false cs).map fun ds => (ofDigits 8 ds : Int)
  | '0' :: 'b' :: cs =>
    (digitRun? (fun c => c == '0' || c == '1') false cs).map fun ds => (ofDigits 2 ds : Int)
  | cs =>
    let (negative, cs) := signed cs
    (decimalDigits? cs).map fun ds =>
      if negative then -(ofDigits 10 ds : Int) else (ofDigits 10 ds : Int)

/-- The nearest double to `digits * 10 ^ exponent`, infinite beyond the range of doubles. -/
def nearestFloat (digits : Nat) (exponent : Int) : Float :=
  let first := exponent + (toString digits).length
  if digits = 0 ∨ first < -400 then 0.0
  else if 400 < first then 1.0 / 0.0
  else Float.ofScientific digits (decide (exponent < 0)) exponent.natAbs

/-- The exponent of a number, after its mark. -/
def exponent? (cs : List Char) : Option Int := do
  let (negative, cs) := signed cs
  let digits ← digitRun? Char.isDigit false cs
  return if negative then -(ofDigits 10 digits : Int) else (ofDigits 10 digits : Int)

/-- Whether a character marks an exponent. -/
def isMark (c : Char) : Bool := c == 'e' || c == 'E'

/-- A double without its sign: with a fraction, an exponent, or both. -/
def magnitude? (cs : List Char) : Option Float := do
  let mantissa := cs.takeWhile fun c => !isMark c
  let power := cs.dropWhile fun c => !isMark c
  let exponent ← if power.isEmpty then pure 0 else exponent? power.tail
  let whole ← decimalDigits? (mantissa.takeWhile (· != '.'))
  let point := mantissa.dropWhile (· != '.')
  if point.isEmpty && power.isEmpty then none
  else
    let fraction ← if point.isEmpty then pure [] else digitRun? Char.isDigit false point.tail
    some (nearestFloat (ofDigits 10 (whole ++ fraction)) (exponent - fraction.length))

/-- A double. One that is written with digits is too large when it is not finite. -/
def float? (cs : List Char) : Option Scalar :=
  let (negative, cs) := signed cs
  let withSign (x : Float) : Scalar := .float (if negative then -x else x)
  if cs == "inf".toList then some (withSign (1.0 / 0.0))
  else if cs == "nan".toList then some (withSign (0.0 / 0.0))
  else (magnitude? cs).map fun x => if x.isFinite then withSign x else .tooLarge

/-- A number of two digits in a range. -/
def twoDigits? (least most : Nat) (a b : Char) : Option Nat :=
  let n := digit a * 10 + digit b
  if a.isDigit && b.isDigit && decide (least ≤ n ∧ n ≤ most) then some n else none

/-- The number of days of a month. -/
def daysIn (year month : Nat) : Nat :=
  if month = 2 then
    if year % 4 = 0 ∧ (year % 100 ≠ 0 ∨ year % 400 = 0) then 29 else 28
  else if month = 4 ∨ month = 6 ∨ month = 9 ∨ month = 11 then 30
  else 31

/-- Passes over a date. -/
def afterDate? : List Char → Option (List Char)
  | y1 :: y2 :: y3 :: y4 :: '-' :: m1 :: m2 :: '-' :: d1 :: d2 :: rest => do
    let century ← twoDigits? 0 99 y1 y2
    let year ← twoDigits? 0 99 y3 y4
    let month ← twoDigits? 1 12 m1 m2
    let _ ← twoDigits? 1 (daysIn (century * 100 + year) month) d1 d2
    return rest
  | _ => none

/-- Passes over the fraction of a second, if there is one. -/
def afterFraction? : List Char → Option (List Char)
  | '.' :: cs => if (cs.takeWhile Char.isDigit).isEmpty then none else some (cs.dropWhile Char.isDigit)
  | cs => some cs

/-- Passes over a time, of which the seconds may be missing. -/
def afterTime? : List Char → Option (List Char)
  | h1 :: h2 :: ':' :: m1 :: m2 :: rest => do
    let _ ← twoDigits? 0 23 h1 h2
    let _ ← twoDigits? 0 59 m1 m2
    match rest with
    | ':' :: s1 :: s2 :: rest => do
      let _ ← twoDigits? 0 60 s1 s2
      afterFraction? rest
    | ':' :: _ => none
    | _ => return rest
  | _ => none

/-- Whether a text is an offset from universal time, or nothing. -/
def isOffset : List Char → Bool
  | [] => true
  | [z] => z == 'Z' || z == 'z'
  | [sign, h1, h2, ':', m1, m2] =>
    (sign == '+' || sign == '-') && (twoDigits? 0 23 h1 h2).isSome && (twoDigits? 0 59 m1 m2).isSome
  | _ => false

/-- Whether a text is a date, a time, or both. -/
def isDate (cs : List Char) : Bool :=
  match afterDate? cs with
  | some [] => true
  | some (c :: rest) => (c == 'T' || c == 't' || c == ' ') && (afterTime? rest).any isOffset
  | none => (afterTime? cs).any (·.isEmpty)

/-- What a word stands for. -/
def ofWord? (cs : List Char) : Option Scalar :=
  if cs == "true".toList then some (.bool true)
  else if cs == "false".toList then some (.bool false)
  else if isDate cs then some .date
  else match int? cs with
    | some n => some (if isReadable n then .int n else .tooLarge)
    | none => float? cs

end Scalar

end Stacklet.Toml
