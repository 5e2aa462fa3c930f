/-!
# The tokens of TOML text

White space, comments, punctuation, strings, and words, which are runs of all other characters: bare
keys and the pieces of numbers and dates. The text is read character by character. A string of three
quotes may hold quotes itself, so its end is known only at the first character that is no quote.
-/

namespace Stacklet.Toml

/-- A token of TOML text. -/
inductive Token where
  /-- White space on a line; `single` tells that it is one blank and nothing else. -/
  | space (single : Bool)
  | newline
  | comment
  | dot
  | comma
  | equals
  | openBracket
  | closeBracket
  | openBrace
  | closeBrace
  | word (text : List Char)
  | text (value : String) (multiline : Bool)

namespace Token

/-- The value of a hexadecimal digit. -/
def hexDigit? (c : Char) : Option Nat :=
  if '0' ≤ c ∧ c ≤ '9' then some (c.toNat - '0'.toNat)
  else if 'a' ≤ c ∧ c ≤ 'f' then some (c.toNat - 'a'.toNat + 10)
  else if 'A' ≤ c ∧ c ≤ 'F' then some (c.toNat - 'A'.toNat + 10)
  else none

/-- The character with a code given in hexadecimal digits. -/
def hexChar? (digits : List Char) : Option Char := do
  let code ← digits.foldlM (fun n c => (hexDigit? c).map (n * 16 + ·)) 0
  if h : code.isValidChar then some (Char.ofNatAux code h) else none

/-- The character of an escape of two characters. -/
def escape? : Char → Option Char
  | 'b' => some '\x08'
  | 't' => some '\t'
  | 'n' => some '\n'
  | 'f' => some '\x0c'
  | 'r' => some '\r'
  | 'e' => some '\x1b'
  | '"' => some '"'
  | '\\' => some '\\'
  | _ => none

/-- Where the reading of an escaped string stands. -/
inductive Escape where
  | none
  | started
  /-- Digits of a character code, the last one first, and how many are still to come. -/
  | code (digits : List Char) (left : Nat)
  /-- White space after a backslash that ends its line; `passed` tells that the line has ended. -/
  | continued (passed : Bool)

/-- The contents of a string with escapes, character by character, the last one first. -/
structure Unescaped where
  escape : Escape
  done : List Char

namespace Unescaped

/-- Reads a character outside escapes. -/
def plain (u : Unescaped) (c : Char) : Unescaped :=
  if c == '\\' then { u with escape := .started } else ⟨.none, c :: u.done⟩

/-- Reads a character. Only in a string of several lines may a backslash end its line. -/
def next (multiline : Bool) (u : Unescaped) (c : Char) : Option Unescaped :=
  match u.escape with
  | .none => some (u.plain c)
  | .started =>
    match c with
    | 'x' => some { u with escape := .code [] 2 }
    | 'u' => some { u with escape := .code [] 4 }
    | 'U' => some { u with escape := .code [] 8 }
    | _ =>
      if multiline && (c == ' ' || c == '\t' || c == '\r') then some { u with escape := .continued false }
      else if multiline && c == '\n' then some { u with escape := .continued true }
      else (escape? c).map fun e => ⟨.none, e :: u.done⟩
  | .code digits left =>
    if left ≤ 1 then (hexChar? (c :: digits).reverse).map fun e => ⟨.none, e :: u.done⟩
    else some { u with escape := .code (c :: digits) (left - 1) }
  | .continued passed =>
    if c == '\n' then some { u with escape := .continued true }
    else if c == ' ' || c == '\t' || c == '\r' then some u
    else if passed then some (u.plain c)
    else none

end Unescaped

/-- The contents of a string with escapes. -/
def unescape? (multiline : Bool) (cs : List Char) : Option String := do
  let u ← cs.foldlM (Unescaped.next multiline) ⟨.none, []⟩
  match u.escape with
  | .none | .continued true => some (String.ofList u.done.reverse)
  | _ => none

/-- Whether a character may stand in strings and comments: no control character but the tab. -/
def isPrintable (c : Char) : Bool := c == '\t' || (decide (' ' ≤ c) && c != '\x7f')

/-- Where the reading of a text stands. In words and strings it has the characters so far, the last
one first. -/
inductive Mode where
  | between
  | blank (single : Bool)
  | word (done : List Char)
  | comment
  /-- After a carriage return, which only a line feed may follow. -/
  | carriage
  /-- After one or two quotes that start a string. -/
  | opening (quote : Char) (second : Bool)
  | short (quote : Char) (done : List Char) (escaped : Bool)
  /-- In a string of three quotes, after a run of quotes. -/
  | long (quote : Char) (done : List Char) (escaped : Bool) (run : Nat)

/-- The reading of a text: where it stands, and the tokens so far, the last one first. -/
structure Scan where
  mode : Mode
  done : List Token

/-- The token of a punctuation character. -/
def punctuation? : Char → Option Token
  | '.' => some .dot
  | ',' => some .comma
  | '=' => some .equals
  | '[' => some .openBracket
  | ']' => some .closeBracket
  | '\x7b' => some .openBrace
  | '\x7d' => some .closeBrace
  | _ => none

/-- The contents of a string of three quotes without the line end that follows the quotes. -/
def dropLineEnd : List Char → List Char
  | '\n' :: cs | '\r' :: '\n' :: cs => cs
  | cs => cs

/-- The token of a string with its raw contents. Single quotes know no escapes. -/
def ofString? (quote : Char) (raw : List Char) (multiline : Bool) : Option Token :=
  let raw := if multiline then dropLineEnd raw else raw
  if quote == '"' then (unescape? multiline raw).map (.text · multiline)
  else some (.text (String.ofList raw) multiline)

namespace Scan

/-- Ends the token that is being read, if the text may end here. -/
def settle? (s : Scan) : Option Scan :=
  match s.mode with
  | .between => some s
  | .blank single => some ⟨.between, .space single :: s.done⟩
  | .word done => some ⟨.between, .word done.reverse :: s.done⟩
  | .comment => some ⟨.between, .comment :: s.done⟩
  | .opening _ true => some ⟨.between, .text "" false :: s.done⟩
  | .long quote done _ run =>
    if 3 ≤ run then
      (ofString? quote (List.replicate (run - 3) quote ++ done).reverse true).map fun t =>
        ⟨.between, t :: s.done⟩
    else none
  | .carriage | .opening _ false | .short .. => none

/-- Starts a token between others. -/
def start (s : Scan) (c : Char) : Scan :=
  if c == ' ' || c == '\t' then { s with mode := .blank (c == ' ') }
  else if c == '\n' then { s with done := .newline :: s.done }
  else if c == '\r' then { s with mode := .carriage }
  else if c == '#' then { s with mode := .comment }
  else if c == '"' || c == '\'' then { s with mode := .opening c false }
  else match punctuation? c with
    | some t => { s with done := t :: s.done }
    | none => { s with mode := .word [c] }

/-- Ends the token that is being read and starts another. -/
def restart? (s : Scan) (c : Char) : Option Scan := s.settle?.map (·.start c)

/-- Whether a character goes on with a word. -/
def goesOn (c : Char) : Bool :=
  !(c == ' ' || c == '\t' || c == '\n' || c == '\r' || c == '#' || c == '"' || c == '\'')
    && (punctuation? c).isNone

/-- Reads a character of a string of one line. -/
def nextShort (s : Scan) (quote : Char) (done : List Char) (escaped : Bool) (c : Char) :
    Option Scan :=
  if !isPrintable c then none
  else if c == quote && !escaped then
    (ofString? quote done.reverse false).map fun t => ⟨.between, t :: s.done⟩
  else some { s with mode := .short quote (c :: done) (quote == '"' && c == '\\' && !escaped) }

/-- Reads a character of a string of three quotes. -/
def nextLong (s : Scan) (quote : Char) (done : List Char) (escaped : Bool) (run : Nat) (c : Char) :
    Option Scan :=
  if c != '\n' && done.head? == some '\r' && run = 0 then none
  else if c == quote && !escaped then
    let s := { s with mode := .long quote done false (run + 1) }
    if run + 1 = 5 then s.settle? else some s
  else if 3 ≤ run then s.restart? c
  else if !isPrintable c && c != '\n' && c != '\r' then none
  else
    let done := List.replicate run quote ++ done
    some { s with mode := .long quote (c :: done) (quote == '"' && c == '\\' && !escaped) 0 }

/-- Reads a character. -/
def next (s : Scan) (c : Char) : Option Scan :=
  match s.mode with
  | .between => some (s.start c)
  | .blank _ => if c == ' ' || c == '\t' then some { s with mode := .blank false } else s.restart? c
  | .word done => if goesOn c then some { s with mode := .word (c :: done) } else s.restart? c
  | .comment =>
    if c == '\n' || c == '\r' then s.restart? c else if isPrintable c then some s else none
  | .carriage => if c == '\n' then some ⟨.between, .newline :: s.done⟩ else none
  | .opening quote second =>
    if c == quote then
      some { s with mode := if second then .long quote [] false 0 else .opening quote true }
    else if second then s.restart? c
    else s.nextShort quote [] false c
  | .short quote done escaped => s.nextShort quote done escaped c
  | .long quote done escaped run => s.nextLong quote done escaped run c

end Scan

/-- The tokens of a text. A byte order mark in front is passed over. -/
def scan? (text : String) : Option (List Token) := do
  let cs := match text.toList with
    | '\ufeff' :: cs => cs
    | cs => cs
  let s ← cs.foldlM Scan.next ⟨.between, []⟩
  return (← s.settle?).done.reverse

end Token

end Stacklet.Toml
