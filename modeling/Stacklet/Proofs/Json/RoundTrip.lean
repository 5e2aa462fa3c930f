import Stacklet.Proofs.Json.Decoded

/-!
# Programs survive their text

A program that is written and read is the same program, whatever the text was from which it was read before. This
is so for any writer and reader that agree on the scalars (`Source.Program.roundTrip_of_codec`), and they do so for
those that write and read compact text, but that of the texts of doubles it is assumed that they read back
(`Source.Program.json_roundTrip`).
-/

namespace Stacklet

namespace Json

/-- A writer and a reader of texts. What is written for a value is read as this value, if its whole numbers fit 64
bits and its doubles have the property. No whole number is read that does not fit. -/
structure Codec (readsBack : Float → Prop) where
  write : Json → String
  parse? : String → Option Json
  parse?_write : ∀ {j : Json}, j.Each (Legible readsBack) → parse? (write j) = some j
  inRange : ∀ {text : String} {j : Json}, parse? text = some j → j.Each InRange

/-- Text without blanks. -/
def compactCodec : Codec ReadsBack where
  write := compact
  parse? := Json.parse?
  parse?_write := parse?_compact
  inRange := parse?_inRange

end Json

namespace Source.Program

variable {p : Program} {readsBack : Float → Prop} (codec : Json.Codec readsBack)

/-- The text of a program is read as the program. -/
theorem ofJson?_write (finite : ∀ x ∈ p.doubles, x.isFinite = true)
    (readable : ∀ x ∈ p.doubles, x.isFinite = true → readsBack x) (deep : p.toJson.nesting ≤ 127) :
    (codec.parse? (codec.write p.toJson)).bind ofJson? = some p := by
  have legible : p.toJson.Each (Json.Legible readsBack) :=
    legible_toJson fun x mem => ⟨finite x mem, readable x mem (finite x mem)⟩
  rw [codec.parse?_write legible, Option.bind_some]
  exact read?_toJson _ finite deep

/-- The double constants of a program that is read from a text are finite. -/
theorem finite_of_ofJson? {text : String} (accepted : (codec.parse? text).bind ofJson? = some p) :
    ∀ x ∈ p.doubles, x.isFinite = true := by
  obtain ⟨j, parsed, read⟩ := Option.bind_eq_some_iff.1 accepted
  exact gives_read? _ j p (codec.inRange parsed) read

/-- If a program is nested no deeper than 127 objects and arrays and its doubles read back, then writing and reading
it changes nothing, provided that its doubles are finite or that it was itself read from a text. -/
theorem roundTrip_of_codec (readable : ∀ x ∈ p.doubles, x.isFinite = true → readsBack x)
    (deep : p.toJson.nesting ≤ 127) :
    ((∀ x ∈ p.doubles, x.isFinite = true) → (codec.parse? (codec.write p.toJson)).bind ofJson? = some p) ∧
    ∀ text, (codec.parse? text).bind ofJson? = some p →
      (codec.parse? (codec.write p.toJson)).bind ofJson? = some p :=
  ⟨fun finite => ofJson?_write codec finite readable deep,
    fun _ accepted => ofJson?_write codec (finite_of_ofJson? codec accepted) readable deep⟩

/-- If a program is nested no deeper than 127 objects and arrays and the texts of its doubles read back, then writing
it without blanks and reading it changes nothing, provided that its doubles are finite or that it was itself read from
a text. -/
theorem json_roundTrip (readBack : ∀ x ∈ p.doubles, x.isFinite = true → Json.ReadsBack x)
    (deep : p.toJson.nesting ≤ 127) :
    ((∀ x ∈ p.doubles, x.isFinite = true) → (Json.parse? p.toJson.compact).bind ofJson? = some p) ∧
    ∀ text, (Json.parse? text).bind ofJson? = some p →
      (Json.parse? p.toJson.compact).bind ofJson? = some p :=
  roundTrip_of_codec Json.compactCodec readBack deep

end Source.Program

/-- A program that adds 3 to a field once. -/
def addsOnce : Source.Program where
  name := "Adds \"3\""
  fields := [⟨"sum", .double⟩]
  returns := none
  body := [
    .whileDo 0 (.literal 1 (.bool true)) (.block 0 [
      .expr 2 (.assign 2 (.field 2 "sum")
        (.binary 2 (.arith .add) (.field 2 "sum") (.literal 2 (.double 3)))),
      .breakOut 3])]

/-- Its value with members left out, in another order, and with others added. -/
def addsOnceLoosely : Json :=
  .obj [
    ("body", .arr [.obj [("kind", .obj [("while", .obj [
      ("body", .obj [("kind", .obj [("block", .arr [
        .obj [("kind", .obj [("expr", .obj [("line", .int 2), ("kind", .obj [("assign", .obj [
          ("value", .arr [.int 2, .obj [("binary", .obj [
            ("op", .obj [("add", .null)]),
            ("lhs", .obj [("kind", .obj [("field", .str "sum")]), ("line", .int 2)]),
            ("rhs", .arr [.int 2, .obj [("literal", .obj [("double", .int 3)])]])])]]),
          ("target", .arr [.int 2, .obj [("field", .str "sum")]])])])])]), ("line", .int 2)],
        .obj [("kind", .obj [("break", .null)]), ("line", .int 3), ("column", .int (-4))]])])]),
      ("condition", .obj [("kind", .obj [("literal", .obj [("bool", .bool true)])]), ("line", .int 1)])])])]]),
    ("name", .str "Adds \"3\""),
    ("comment", .str "tab\t, bell\x07"),
    ("fields", .arr [.arr [.str "sum", .str "double"]])]

/-- It is read from that text too, and writing and reading it changes nothing. -/
theorem addsOnce_roundTrip :
    (Json.parse? addsOnceLoosely.compact).bind Source.Program.ofJson? = some addsOnce ∧
    addsOnce.doubles = [3] ∧ Json.ReadsBack 3 ∧ addsOnce.toJson.nesting = 19 ∧
    (Json.parse? addsOnce.toJson.compact).bind Source.Program.ofJson? = some addsOnce := by
  have legible : addsOnceLoosely.Each (Json.Legible Json.ReadsBack) := by
    simp [addsOnceLoosely, Json.Each, Json.EachItem, Json.EachMember, Json.Legible, Json.Fits]
  have accepted : (Json.parse? addsOnceLoosely.compact).bind Source.Program.ofJson? = some addsOnce := by
    rw [Json.parse?_compact legible]
    rfl
  have doubles : addsOnce.doubles = [3] := rfl
  have readBack : Json.ReadsBack 3 := by
    have text : (Json.doubleStyle.write 3).toList = ['3', '.', '0'] := by decide +kernel
    have read : Json.Numeral.read? ['3', '.', '0'] = some (.double (Json.Numeral.scale 30 (-1))) := rfl
    rw [Json.ReadsBack, text, read, Json.Numeral.scale]
    rfl
  have deep : addsOnce.toJson.nesting = 19 := by decide
  have same := Source.Program.json_roundTrip (p := addsOnce)
    (by rw [doubles]; exact fun x mem _ => List.mem_singleton.1 mem ▸ readBack) (by rw [deep]; decide)
  exact ⟨accepted, doubles, readBack, deep, same.2 _ accepted⟩

end Stacklet
