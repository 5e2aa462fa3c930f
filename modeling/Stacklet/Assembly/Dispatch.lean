import Stacklet.Assembly.Call

/-!
# Switches

A switch becomes a table when its keys lie close enough together, and a list of pairs otherwise. Of
two equal keys the first counts.
-/

namespace Stacklet

/-- A key of a switch with the label that it leads to. -/
abbrev Arm := Int32 × Label

namespace Arm

/-- Puts an arm in front of arms with larger or equal keys; it replaces one with an equal key. -/
def put (arm : Arm) : List Arm → List Arm
  | [] => [arm]
  | next :: rest => if arm.1 = next.1 then arm :: rest else arm :: next :: rest

/-- The arms of keys and labels: with increasing keys, each with its first label. -/
def sorted (keys : List Int32) (labels : List Label) : List Arm :=
  ((keys.zip labels).mergeSort fun a b => decide (a.1 ≤ b.1)).foldr put []

end Arm

/-- How a switch finds its label. -/
inductive Dispatch where
  /-- An entry for each of consecutive ints from `low` on. -/
  | table (low : Int32) (entries : Array Label)
  /-- Pairs with increasing keys. -/
  | lookup (arms : List Arm)

namespace Dispatch

/-- The greatest number of entries of a table. -/
def maxTable : Nat := 65536

/-- A table of the keys from `low` on, where ints that are no keys lead to `other`. -/
def tableOf (low : Int32) (size : Nat) (arms : List Arm) (other : Label) : Array Label :=
  arms.foldl (fun entries arm => entries.setIfInBounds (arm.1.toInt - low.toInt).toNat arm.2)
    (Array.replicate size other)

/-- The number of ints from the least to the greatest key. -/
def span (first last : Arm) : Nat := (last.1.toInt - first.1.toInt + 1).toNat

/-- Whether the keys fill at least the wanted fraction of a table of permitted size. -/
def isDense (minDensity : Float) (count span : Nat) : Bool :=
  decide (span ≤ maxTable) && decide (minDensity ≤ count.toFloat / span.toFloat)

/-- The dispatch for arms with increasing keys. -/
def ofArms (minDensity : Float) (arms : List Arm) (other : Label) : Dispatch :=
  match arms.head?, arms.getLast? with
  | some first, some last =>
    let size := span first last
    if isDense minDensity arms.length size then .table first.1 (tableOf first.1 size arms other)
    else .lookup arms
  | _, _ => .lookup arms

end Dispatch

end Stacklet
