import Stacklet.Json.Numeral

/-!
# The tokens of JSON text

The text is read character by character: a string runs to the next quote that is not escaped, and any
other run of characters up to white space or punctuation is one word, a constant or a number.
-/

namespace Stacklet.Json

/-- A token of JSON text. -/
inductive Token where
  | openObject
  | closeObject
  | openArray
  | closeArray
  | comma
  | colon
  /-- A constant or a number. -/
  | scalar (value : Json)
  /-- A string; none when half a surrogate pair stands in it. -/
  | text (value : Option String)

namespace Token

/-- White space between tokens. -/
def isBlank (c : Char) : Bool := c == ' ' || c == '\n' || c == '\t' || c == '\r'

/-- The token of a punctuation character. -/
def punctuation? : Char → Option Token
  | '\x7b' => some .openObject
  | '\x7d' => some .closeObject
  | '[' => some .openArray
  | ']' => some .closeArray
  | ',' => some .comma
  | ':' => some .colon
  | _ => none

/-- A constant or a number, from all its characters. -/
def word? (cs : List Char) : Option Token :=
  if cs == "null".toList then some (.scalar .null)
  else if cs == "true".toList then some (.scalar (.bool true))
  else if cs == "false".toList then some (.scalar (.bool false))
  else (Numeral.read? cs).map .scalar

/-- The value of a hexadecimal digit. -/
def hexDigit? (c : Char) : Option Nat :=
  if '0' ≤ c ∧ c ≤ '9' then some (c.toNat - '0'.toNat)
  else if 'a' ≤ c ∧ c ≤ 'f' then some (c.toNat - 'a'.toNat + 10)
  else if 'A' ≤ c ∧ c ≤ 'F' then some (c.toNat - 'A'.toNat + 10)
  else none

/-- The value of four hexadecimal digits. -/
def hex4? (a b c d : Char) : Option Nat := do
  return (← hexDigit? a) * 4096 + (← hexDigit? b) * 256 + (← hexDigit? c) * 16 + (← hexDigit? d)

/-- The character of an escape of two characters. -/
def escape? : Char → Option Char
  | '"' => some '"'
  | '\\' => some '\\'
  | '/' => some '/'
  | 'b' => some '\x08'
  | 'f' => some '\x0c'
  | 'n' => some '\n'
  | 'r' => some '\r'
  | 't' => some '\t'
  | _ => none

/-- Whether a code unit opens a surrogate pair. -/
def isHighSurrogate (u : Nat) : Bool := decide (0xd800 ≤ u ∧ u < 0xdc00)

/-- Whether a code unit closes a surrogate pair. -/
def isLowSurrogate (u : Nat) : Bool := decide (0xdc00 ≤ u ∧ u < 0xe000)

/-- The contents of a string without its escapes. `sound` tells that no half of a surrogate pair has
been seen; `done` are the characters so far, the last one first. -/
def unescape (sound : Bool) (done : List Char) : List Char → Option (Option String)
  | [] => some (if sound then some (String.ofList done.reverse) else none)
  | '\\' :: 'u' :: a :: b :: c :: d :: '\\' :: 'u' :: a' :: b' :: c' :: d' :: cs =>
    match hex4? a b c d, hex4? a' b' c' d' with
    | some u, some v =>
      if isHighSurrogate u && isLowSurrogate v then
        unescape sound (Char.ofNat (0x10000 + (u - 0xd800) * 1024 + (v - 0xdc00)) :: done) cs
      else
        unescape (sound && !isHighSurrogate u && !isLowSurrogate u) (Char.ofNat u :: done)
          ('\\' :: 'u' :: a' :: b' :: c' :: d' :: cs)
    | _, _ => none
  | '\\' :: 'u' :: a :: b :: c :: d :: cs =>
    match hex4? a b c d with
    | some u =>
      unescape (sound && !isHighSurrogate u && !isLowSurrogate u) (Char.ofNat u :: done) cs
    | none => none
  | '\\' :: c :: cs =>
    match escape? c with
    | some e => unescape sound (e :: done) cs
    | none => none
  | '\\' :: [] => none
  | c :: cs => unescape sound (c :: done) cs

/-- Where the reading of a text stands: between tokens, in a word, or in a string, with the
characters read of it, the last one first. -/
inductive Mode where
  | between
  | word (done : List Char)
  | string (done : List Char) (escaped : Bool)

/-- The reading of a text: where it stands, and the tokens so far, the last one first. -/
structure Scan where
  mode : Mode
  done : List Token

namespace Scan

/-- Ends a word. -/
def endWord (s : Scan) : Option Scan :=
  match s.mode with
  | .between => some s
  | .word done => (word? done.reverse).map fun t => ⟨.between, t :: s.done⟩
  | .string .. => none

/-- Reads a character outside strings. -/
def plain (s : Scan) (c : Char) : Option Scan :=
  if isBlank c then s.endWord
  else if c == '"' then s.endWord.map fun s => { s with mode := .string [] false }
  else match punctuation? c, s.mode with
    | some t, _ => s.endWord.map fun s => { s with done := t :: s.done }
    | none, .word done => some { s with mode := .word (c :: done) }
    | none, _ => some { s with mode := .word [c] }

/-- Reads a character. -/
def next (s : Scan) (c : Char) : Option Scan :=
  match s.mode with
  | .string done true => some { s with mode := .string (c :: done) false }
  | .string done false =>
    if c == '"' then (unescape true [] done.reverse).map fun t => ⟨.between, .text t :: s.done⟩
    else if c < ' ' then none
    else some { s with mode := .string (c :: done) (c == '\\') }
  | _ => s.plain c

end Scan

/-- The tokens of a text. -/
def scan? (text : String) : Option (List Token) := do
  let s ← text.toList.foldlM Scan.next ⟨.between, []⟩
  return (← s.endWord).done.reverse

end Token

end Stacklet.Json
