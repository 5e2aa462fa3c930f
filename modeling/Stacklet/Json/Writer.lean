import Stacklet.Decimal.Style
import Stacklet.Json.Basic

/-!
# Writing JSON

Two forms: compact, without any white space, and indented, with one part a line. Both write control
characters as escapes, and everything beyond ASCII as it is.
-/

namespace Stacklet.Json

/-- Doubles keep a point, and have a signed exponent below `1e-5` and from `1e16` on. -/
def doubleStyle : Decimal.Style where
  positional := some (-5, 15)
  keepsPoint := true
  plus := true
  tie := .even

/-- A digit in base sixteen. -/
def hexDigit (n : Nat) : Char :=
  if n < 10 then Char.ofNat ('0'.toNat + n) else Char.ofNat ('a'.toNat + (n - 10))

/-- A character inside a string. -/
def escapeChar (out : String) (c : Char) : String :=
  match c with
  | '"' => out ++ "\\\""
  | '\\' => out ++ "\\\\"
  | '\n' => out ++ "\\n"
  | '\r' => out ++ "\\r"
  | '\t' => out ++ "\\t"
  | '\x08' => out ++ "\\b"
  | '\x0c' => out ++ "\\f"
  | c =>
    if c < ' ' then ((out ++ "\\u00").push (hexDigit (c.toNat / 16))).push (hexDigit (c.toNat % 16))
    else out.push c

/-- A string in quotes, written after `out`. -/
def writeText (out text : String) : String := (text.foldl escapeChar (out.push '"')).push '"'

/-- A double, written after `out`. Infinities and what is not a number have no form of their own. -/
def writeDouble (out : String) (x : Float) : String :=
  if x.isFinite then out ++ doubleStyle.write x else out ++ "null"

mutual

/-- A value in the compact form, written after `out`. -/
def writeCompact (out : String) : Json → String
  | .null | .illFormed => out ++ "null"
  | .bool b => out ++ (if b then "true" else "false")
  | .int n => out ++ toString n
  | .double x => writeDouble out x
  | .str s => writeText out s
  | .arr items => (writeItems (out.push '[') true items).push ']'
  | .obj members => (writeMembers (out.push '\x7b') true members).push '\x7d'

/-- The items of an array; all but the first come after a comma. -/
def writeItems (out : String) (first : Bool) : List Json → String
  | [] => out
  | item :: rest => writeItems (writeCompact (if first then out else out.push ',') item) false rest

/-- The members of an object; all but the first come after a comma. -/
def writeMembers (out : String) (first : Bool) : List (String × Json) → String
  | [] => out
  | (key, value) :: rest =>
    let out := (writeText (if first then out else out.push ',') key).push ':'
    writeMembers (writeCompact out value) false rest

end

/-- The value in the compact form. -/
def compact (j : Json) : String := writeCompact "" j

/-- Starts a line at a depth of nesting. -/
def newLine (out : String) (depth : Nat) : String := (out.push '\n').pushn ' ' (2 * depth)

mutual

/-- A value in the indented form, written after `out` at a depth of nesting. -/
def writeIndented (out : String) (depth : Nat) : Json → String
  | .arr [] => out ++ "[]"
  | .arr (item :: items) =>
    (newLine (indentItems (out.push '[') (depth + 1) true (item :: items)) depth).push ']'
  | .obj [] => (out.push '\x7b').push '\x7d'
  | .obj (member :: members) =>
    (newLine (indentMembers (out.push '\x7b') (depth + 1) true (member :: members)) depth).push '\x7d'
  | j => writeCompact out j

/-- The items of an array, one a line; all but the first come after a comma. -/
def indentItems (out : String) (depth : Nat) (first : Bool) : List Json → String
  | [] => out
  | item :: rest =>
    let out := newLine (if first then out else out.push ',') depth
    indentItems (writeIndented out depth item) depth false rest

/-- The members of an object, one a line; all but the first come after a comma. -/
def indentMembers (out : String) (depth : Nat) (first : Bool) : List (String × Json) → String
  | [] => out
  | (key, value) :: rest =>
    let out := newLine (if first then out else out.push ',') depth
    let out := writeText out key ++ ": "
    indentMembers (writeIndented out depth value) depth false rest

end

/-- The value in the indented form. -/
def indented (j : Json) : String := writeIndented "" 0 j

end Stacklet.Json
