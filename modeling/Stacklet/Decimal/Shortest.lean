import Stacklet.Decimal.Parts

/-!
# The fewest digits that read back

Every finite double is the nearest one to all reals of an interval around it. `shortest` finds the
decimal of the fewest digits inside that interval, and of those the one nearest to the double. It
tries ever finer grids of powers of ten and on each the two points next to the value: if any point
of a grid lies in the interval, one of these two does. All comparisons are exact.
-/

namespace Stacklet.Decimal

/-- Which of two equally near decimals is taken. -/
inductive Tie where
  | up
  | even
deriving DecidableEq

/-- The decimal `digits * 10 ^ exponent`. -/
structure Digits where
  digits : Nat
  exponent : Int
deriving DecidableEq

/-- A value with the interval of reals that round to it, over a common denominator. -/
structure Rounding where
  low : Nat
  value : Nat
  high : Nat
  unit : Nat
  /-- Whether the ends of the interval round to the value too. -/
  closed : Bool

namespace Rounding

/-- The interval of the double `mantissa * 2 ^ exponent`. Below a power of two the doubles lie twice
as dense, so the interval is narrower there. An end is half way between two doubles and rounds to
the one with the even mantissa. -/
def ofBinary (mantissa : Nat) (exponent : Int) : Rounding :=
  let narrow := mantissa == 1 <<< 52 && decide (Parts.minExponent < exponent)
  let up := 1 <<< (exponent - 2).toNat
  { low := (if narrow then 4 * mantissa - 1 else 4 * mantissa - 2) * up
    value := 4 * mantissa * up
    high := (4 * mantissa + 2) * up
    unit := 1 <<< (2 - exponent).toNat
    closed := mantissa % 2 == 0 }

/-- The same interval measured in units of `10 ^ grid`. -/
def scale (r : Rounding) (grid : Int) : Rounding :=
  let up := Nat.pow 10 (-grid).toNat
  { r with low := r.low * up, value := r.value * up, high := r.high * up,
           unit := r.unit * Nat.pow 10 grid.toNat }

/-- Whether a multiple of the unit lies in the interval. -/
def contains (r : Rounding) (point : Nat) : Bool :=
  let x := point * r.unit
  if r.closed then decide (r.low ≤ x ∧ x ≤ r.high) else decide (r.low < x ∧ x < r.high)

/-- The multiple of the unit that lies in the interval and is nearest to the value. -/
def nearest? (r : Rounding) (tie : Tie) : Option Nat :=
  let below := r.value / r.unit
  let excess := 2 * (r.value % r.unit)
  match r.contains below, r.contains (below + 1) with
  | true, true =>
    if excess < r.unit then some below
    else if r.unit < excess then some (below + 1)
    else match tie with
      | .up => some (below + 1)
      | .even => some (below + below % 2)
  | true, false => some below
  | false, true => some (below + 1)
  | false, false => none

/-- A grid that is coarser than the value, by less than a few powers of ten. -/
def coarseGrid (r : Rounding) : Int :=
  ((r.value.log2 : Int) - r.unit.log2 + 1) * 30103 / 100000 + 1

end Rounding

/-- The grids below the coarse one that have to be tried: seventeen digits tell all doubles apart,
and the coarse grid is at most four powers of ten off. -/
def gridsTried : Nat := 22

/-- The decimal of the fewest digits that rounds to the positive double `mantissa * 2 ^ exponent`,
and of those the nearest. -/
def shortest (tie : Tie) (mantissa : Nat) (exponent : Int) : Digits :=
  let r := Rounding.ofBinary mantissa exponent
  let found := (List.range gridsTried).findSome? fun (i : Nat) =>
    let grid := r.coarseGrid - i
    ((r.scale grid).nearest? tie).map fun digits => { digits, exponent := grid : Digits }
  found.getD { digits := 0, exponent := 0 }

end Stacklet.Decimal
