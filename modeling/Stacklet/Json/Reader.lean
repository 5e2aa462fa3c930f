import Stacklet.Json.Token

/-!
# Reading JSON

`Json.parse?` puts the tokens of a text together, with the containers that are still open held in a
list, the innermost first. Nothing but white space may surround the value.
-/

namespace Stacklet.Json

/-- A container that is still open, with its parts so far, the last one first. -/
inductive Open where
  | arr (items : List Json)
  /-- An object; `sound` tells that all its keys are well formed. -/
  | obj (members : List (String × Json)) (sound : Bool)
  /-- An object that waits for the value of a key. -/
  | member (members : List (String × Json)) (sound : Bool) (key : String)

/-- What may come next. -/
inductive Expected where
  | value
  /-- The first item of an array, or its end. -/
  | item
  | key
  /-- The first key of an object, or its end. -/
  | keyOrEnd
  | colon
  /-- A comma or the end of the innermost container. -/
  | separator
  /-- Nothing: the value is complete. -/
  | nothing (value : Json)

/-- A value in the making. -/
structure Draft where
  opened : List Open
  expected : Expected

namespace Draft

/-- Adds a complete value to the innermost container. -/
def add (opened : List Open) (value : Json) : Option Draft :=
  match opened with
  | [] => some ⟨[], .nothing value⟩
  | .arr items :: outer => some ⟨.arr (value :: items) :: outer, .separator⟩
  | .member members sound key :: outer => some ⟨.obj ((key, value) :: members) sound :: outer, .separator⟩
  | .obj .. :: _ => none

/-- Closes the innermost array. -/
def closeArray : List Open → Option Draft
  | .arr items :: outer => add outer (.arr items.reverse)
  | _ => none

/-- Closes the innermost object. -/
def closeObject : List Open → Option Draft
  | .obj members sound :: outer => add outer (if sound then .obj members.reverse else .illFormed)
  | _ => none

/-- Takes a token where a value may start. -/
def startValue (opened : List Open) : Token → Option Draft
  | .openObject => some ⟨.obj [] true :: opened, .keyOrEnd⟩
  | .openArray => some ⟨.arr [] :: opened, .item⟩
  | .scalar value => add opened value
  | .text (some s) => add opened (.str s)
  | .text none => add opened .illFormed
  | _ => none

/-- Takes a token where a key may start. -/
def startKey (opened : List Open) (t : Token) : Option Draft :=
  match opened, t with
  | .obj members sound :: outer, .text (some key) => some ⟨.member members sound key :: outer, .colon⟩
  | .obj members _ :: outer, .text none => some ⟨.member members false "" :: outer, .colon⟩
  | _, _ => none

/-- Takes a token after a part of a container. -/
def separate (opened : List Open) (t : Token) : Option Draft :=
  match t, opened with
  | .comma, .arr _ :: _ => some ⟨opened, .value⟩
  | .comma, .obj .. :: _ => some ⟨opened, .key⟩
  | .closeArray, _ => closeArray opened
  | .closeObject, _ => closeObject opened
  | _, _ => none

/-- Takes the next token. -/
def next (d : Draft) (t : Token) : Option Draft :=
  match d.expected, t with
  | .value, _ => startValue d.opened t
  | .item, .closeArray => closeArray d.opened
  | .item, _ => startValue d.opened t
  | .key, _ => startKey d.opened t
  | .keyOrEnd, .closeObject => closeObject d.opened
  | .keyOrEnd, _ => startKey d.opened t
  | .colon, .colon => some { d with expected := .value }
  | .colon, _ => none
  | .separator, _ => separate d.opened t
  | .nothing _, _ => none

end Draft

/-- The value that the tokens spell. -/
def ofTokens? (tokens : List Token) : Option Json := do
  match (← tokens.foldlM Draft.next ⟨[], .value⟩).expected with
  | .nothing value => some value
  | _ => none

/-- The value that a text spells. -/
def parse? (text : String) : Option Json := do ofTokens? (← Token.scan? text)

end Stacklet.Json
