import Stacklet.Toml.Scalar
import Stacklet.Toml.Token

/-!
# Reading TOML

A document is a table. Headers open tables in it, and lines of a key and a value fill the table that
was opened last. A key may be a path; the tables on the way are made when they are missing. No table
is opened twice, none that was given as a value is extended, and no key is given twice.
-/

namespace Stacklet

/-- A TOML value. -/
inductive Toml where
  | str (value : String)
  | scalar (value : Toml.Scalar)
  | arr (items : List Toml)
  | table (entries : List (String × Toml))

namespace Toml

/-- How a table of a document came about. -/
inductive Origin where
  /-- On the way to a table that a header opened. -/
  | passed
  /-- Opened by a header. -/
  | opened
  /-- On the way of a key that is a path. -/
  | dotted
deriving DecidableEq

/-- A part of a document that is being read. -/
inductive Node where
  | value (value : Toml)
  | table (origin : Origin) (entries : List (String × Node))
  /-- A table for every header of two brackets, the last one first. -/
  | tables (items : List (List (String × Node)))

/-- The entries of a table of a document. -/
abbrev Entries := List (String × Node)

namespace Entries

/-- Puts a node under a key, in the place of the one that is there. -/
def put (entries : Entries) (key : String) (node : Node) : Entries :=
  match entries with
  | [] => [(key, node)]
  | (k, old) :: rest => if k == key then (k, node) :: rest else (k, old) :: put rest key node

/-- Changes the table that a path leads to from a table of some origin, by its origin and entries.
Tables that are missing are made with the origin `made`. A key does not lead on from a table that a
header opened, unless that is an item of an array. -/
def change (made : Origin) (last : Origin → Entries → Option Entries) (origin : Origin)
    (entries : Entries) : List String → Option Entries
  | [] => last origin entries
  | key :: path =>
    match entries.lookup key with
    | none => do return put entries key (.table made (← change made last made [] path))
    | some (.table found inner) =>
      if made = .dotted ∧ found = .opened then none
      else do return put entries key (.table found (← change made last found inner path))
    | some (.tables (inner :: others)) => do
      return put entries key (.tables ((← change made last .opened inner path) :: others))
    | some _ => none

/-- Adds a value under a key that is not there yet. -/
def addNew (key : String) (value : Toml) (entries : Entries) : Option Entries :=
  if (entries.lookup key).isSome then none else some (put entries key (.value value))

/-- Adds a value at the end of a path. A table that is reached by a path of keys has to come from
such a path itself. -/
def assign (path : List String) (value : Toml) (entries : Entries) : Option Entries :=
  match path.getLast? with
  | none => none
  | some key =>
    let inTable (origin : Origin) (entries : Entries) : Option Entries :=
      if path.dropLast.isEmpty || origin = .dotted then addNew key value entries else none
    change .dotted inTable .opened entries path.dropLast

/-- Opens a table. -/
def openTable (key : String) (entries : Entries) : Option Entries :=
  match entries.lookup key with
  | none => some (put entries key (.table .opened []))
  | some (.table .passed inner) => some (put entries key (.table .opened inner))
  | some _ => none

/-- Opens the next table of an array of tables. -/
def openItem (key : String) (entries : Entries) : Option Entries :=
  match entries.lookup key with
  | none => some (put entries key (.tables [[]]))
  | some (.tables items) => some (put entries key (.tables ([] :: items)))
  | some _ => none

end Entries

mutual

/-- The value of a part of a document. -/
def Node.toToml : Node → Toml
  | .value v => v
  | .table _ entries => .table (Node.entriesToToml entries)
  | .tables items => .arr (Node.itemsToToml items).reverse

/-- The values of the entries of a table. -/
def Node.entriesToToml : List (String × Node) → List (String × Toml)
  | [] => []
  | (key, node) :: rest => (key, node.toToml) :: Node.entriesToToml rest

/-- The values of the tables of an array. -/
def Node.itemsToToml : List (List (String × Node)) → List Toml
  | [] => []
  | entries :: rest => .table (Node.entriesToToml entries) :: Node.itemsToToml rest

end

/-- Passes over white space on a line. -/
def skipSpace : List Token → List Token
  | .space _ :: ts => skipSpace ts
  | ts => ts

/-- Passes over white space, line ends and comments. -/
def skipLayout : List Token → List Token
  | .space _ :: ts | .newline :: ts | .comment :: ts => skipLayout ts
  | ts => ts

/-- Whether a character may stand in a bare key. -/
def isKeyChar (c : Char) : Bool := c.isAlphanum || c == '_' || c == '-'

/-- Whether a token may stand in a key. -/
def isKeyToken : Token → Bool
  | .word _ | .text _ false | .dot | .space _ => true
  | _ => false

/-- The path of a key, from its tokens without white space. -/
def path? : List Token → Option (List String)
  | [.word cs] => if cs.all isKeyChar then some [String.ofList cs] else none
  | [.text s _] => some [s]
  | .word cs :: .dot :: ts => do
    if cs.all isKeyChar then return String.ofList cs :: (← path? ts) else none
  | .text s _ :: .dot :: ts => do return s :: (← path? ts)
  | _ => none

/-- Whether a token is white space on a line. -/
def isSpace : Token → Bool
  | .space _ => true
  | _ => false

/-- A key in front of other tokens. -/
def key? (ts : List Token) : Option (List String × List Token) := do
  let path ← path? ((ts.takeWhile isKeyToken).filter (!isSpace ·))
  return (path, ts.dropWhile isKeyToken)

/-- The characters of words and dots in front of other tokens. -/
def wordChars : List Token → List Char × List Token
  | .word cs :: ts =>
    let (more, rest) := wordChars ts
    (cs ++ more, rest)
  | .dot :: ts =>
    let (more, rest) := wordChars ts
    ('.' :: more, rest)
  | ts => ([], ts)

/-- A number, truth value or date in front of other tokens. One blank may stand between a date
and a time. -/
def scalar? (ts : List Token) : Option (Scalar × List Token) :=
  let (cs, rest) := wordChars ts
  let joined := match rest with
    | .space true :: rest =>
      let (time, rest) := wordChars rest
      if Scalar.afterDate? cs == some [] && !time.isEmpty then some (cs ++ ' ' :: time, rest) else none
    | _ => none
  let (cs, rest) := joined.getD (cs, rest)
  (Scalar.ofWord? cs).map fun s => (s, rest)

/-- The deepest nesting of arrays and tables in a value. -/
def maxNesting : Nat := 80

mutual

/-- Reads a value with room for so many levels of nesting. A call that is not the last takes a token
within two calls, so that `fuel` beyond twice the number of tokens is never used up. -/
def value? (fuel room : Nat) (ts : List Token) : Option (Toml × List Token) :=
  match fuel with
  | 0 => none
  | fuel + 1 =>
    match ts with
    | .text s _ :: ts => some (.str s, ts)
    | .openBracket :: ts => if room = 0 then none else items? fuel (room - 1) [] (skipLayout ts)
    | .openBrace :: ts => if room = 0 then none else entries? fuel (room - 1) [] (skipLayout ts)
    | ts => (scalar? ts).map fun (s, ts) => (.scalar s, ts)

/-- Reads the items of an array, to its end. The items so far come last one first. -/
def items? (fuel room : Nat) (done : List Toml) (ts : List Token) : Option (Toml × List Token) :=
  match fuel with
  | 0 => none
  | fuel + 1 =>
    match ts with
    | .closeBracket :: ts => some (.arr done.reverse, ts)
    | ts => do
      let (item, ts) ← value? fuel room ts
      match skipLayout ts with
      | .comma :: ts => items? fuel room (item :: done) (skipLayout ts)
      | .closeBracket :: ts => some (.arr (item :: done).reverse, ts)
      | _ => none

/-- Reads the entries of a table given as a value, to its end. -/
def entries? (fuel room : Nat) (done : Entries) (ts : List Token) : Option (Toml × List Token) :=
  match fuel with
  | 0 => none
  | fuel + 1 =>
    match ts with
    | .closeBrace :: ts => some (.table (Node.entriesToToml done), ts)
    | ts => do
      let (path, ts) ← key? ts
      let .equals :: ts := ts | none
      let (value, ts) ← value? fuel room (skipSpace ts)
      let done ← Entries.assign path value done
      match skipLayout ts with
      | .comma :: ts => entries? fuel room done (skipLayout ts)
      | .closeBrace :: ts => some (.table (Node.entriesToToml done), ts)
      | _ => none

end

/-- A document that is being read: its tables, and the path to the one that was opened last. -/
structure Document where
  entries : Entries
  current : List String

namespace Document

/-- Opens a table at a path. -/
def openAt (d : Document) (path : List String) (last : String → Entries → Option Entries) :
    Option Document := do
  let key ← path.getLast?
  return ⟨← Entries.change .passed (fun _ => last key) .opened d.entries path.dropLast, path⟩

/-- Takes a header or a key with its value from the front of a line. -/
def line? (d : Document) (ts : List Token) : Option (Document × List Token) :=
  match ts with
  | .openBracket :: .openBracket :: ts => do
    let (path, ts) ← key? ts
    let .closeBracket :: .closeBracket :: ts := ts | none
    return (← d.openAt path Entries.openItem, ts)
  | .openBracket :: ts => do
    let (path, ts) ← key? ts
    let .closeBracket :: ts := ts | none
    return (← d.openAt path Entries.openTable, ts)
  | ts => do
    let (path, ts) ← key? ts
    let .equals :: ts := ts | none
    let (value, ts) ← value? (2 * ts.length + 2) maxNesting (skipSpace ts)
    let add (_ : Origin) (entries : Entries) : Option Entries := Entries.assign path value entries
    return ({ d with entries := ← Entries.change .passed add .opened d.entries d.current }, ts)

/-- Passes over the rest of a line, which holds at most a comment. -/
def endLine? (ts : List Token) : Option (List Token) :=
  let rest := match skipSpace ts with
    | .comment :: ts => ts
    | ts => ts
  match rest with
  | [] => some []
  | .newline :: ts => some ts
  | _ => none

/-- Reads the lines of a document. Every line takes a token or ends the reading, so that `fuel` more
than the number of tokens is never used up. -/
def lines? (fuel : Nat) (d : Document) (ts : List Token) : Option Document :=
  match fuel with
  | 0 => none
  | fuel + 1 =>
    match skipLayout ts with
    | [] => some d
    | ts => do
      let (d, ts) ← d.line? ts
      lines? fuel d (← endLine? ts)

end Document

/-- The entries of the table that a text spells. -/
def parse? (text : String) : Option (List (String × Toml)) := do
  let ts ← Token.scan? text
  let d ← Document.lines? (ts.length + 1) ⟨[], []⟩ ts
  return Node.entriesToToml d.entries

end Toml

end Stacklet
