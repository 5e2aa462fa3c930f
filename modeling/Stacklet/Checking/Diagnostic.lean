import Stacklet.Source.Printer

/-!
# Diagnostics

A mistake in a program is a `Diagnostic`: a line, the kind of mistake and a message. `Diagnostics`
collects them in the order in which they are reported. With a limit it keeps the first ones and only
counts the others.
-/

namespace Stacklet

/-- The kinds of mistakes. -/
inductive Mistake where
  | conditionType
  | notAssignable
  | operandType
  | switchType
  | duplicateCase
  | duplicateDefault
  | nonConstantCase
  | misplacedContinue
  | misplacedBreak
  | typeMismatch
  | undefinedName
  | redeclared
  | notAStatement
  | returnType
deriving DecidableEq

/-- A mistake on a line. -/
structure Diagnostic where
  line : Line
  kind : Mistake
  message : String
deriving DecidableEq

namespace Diagnostic

/-- A diagnostic as it is shown. -/
def text (d : Diagnostic) : String := "line " ++ toString d.line.toNat ++ ": " ++ d.message

/-- A name that is neither a local in scope nor a field. -/
def unknownName (line : Line) (name : String) : Diagnostic :=
  ⟨line, .undefinedName, "Cannot find name " ++ name⟩

/-- A field that the receiver does not have. -/
def unknownField (line : Line) (name : String) : Diagnostic :=
  ⟨line, .undefinedName, "Cannot find field " ++ name⟩

/-- A value where a place is needed. -/
def noPlace (line : Line) (role : String) : Diagnostic :=
  ⟨line, .notAssignable, role ++ " must have an LValue"⟩

/-- An operator with one operand on a type that it does not take. -/
def badOperand (line : Line) (symbol : String) (ty : Ty) : Diagnostic :=
  ⟨line, .operandType, "Invalid operand type for " ++ symbol ++ ": " ++ ty.name⟩

/-- An operator with two operands on types that it does not take. -/
def badOperands (line : Line) (symbol : String) (lhs rhs : Ty) : Diagnostic :=
  ⟨line, .operandType,
    "Invalid operand types for " ++ symbol ++ ": " ++ lhs.name ++ " and " ++ rhs.name⟩

/-- A value of one type where another is expected. -/
def mismatch (line : Line) (found expected : Ty) : Diagnostic :=
  ⟨line, .typeMismatch, "Type " ++ found.name ++ " doesn't match type " ++ expected.name⟩

/-- A condition that is not boolean. -/
def badCondition (line : Line) (construct : String) (found : Ty) : Diagnostic :=
  ⟨line, .conditionType,
    "Condition of " ++ construct ++ " statement must be boolean, found " ++ found.name⟩

/-- A switch on something else than an int. -/
def badDiscriminant (line : Line) (found : Ty) : Diagnostic :=
  ⟨line, .switchType, "Switch expression must be of type int, found " ++ found.name⟩

/-- A case label that the switch has already. -/
def repeatedCase (line : Line) (value : Int32) : Diagnostic :=
  ⟨line, .duplicateCase, "Duplicate case label " ++ toString value.toInt ++ " in switch"⟩

/-- A second default of a switch. -/
def repeatedDefault (line : Line) : Diagnostic :=
  ⟨line, .duplicateDefault, "Duplicate default label in switch"⟩

/-- A case label that is not constant. -/
def variableCase (line : Line) (label : Source.Expr) : Diagnostic :=
  ⟨line, .nonConstantCase, "Case label " ++ label.text ++ " is not an int constant"⟩

/-- A `break` with nothing to leave. -/
def strayBreak (line : Line) : Diagnostic := ⟨line, .misplacedBreak, "break outside switch or loop"⟩

/-- A `continue` with no loop to repeat. -/
def strayContinue (line : Line) : Diagnostic :=
  ⟨line, .misplacedContinue, "continue outside of loop"⟩

/-- A second local of one name in a scope. -/
def repeatedLocal (line : Line) (name : String) : Diagnostic :=
  ⟨line, .redeclared, "Variable " ++ name ++ " is already defined"⟩

/-- A second field of one name. Fields have no lines. -/
def repeatedField (name : String) : Diagnostic :=
  ⟨0, .redeclared, "Field " ++ name ++ " is already defined"⟩

/-- An expression statement without an effect. -/
def noEffect (line : Line) (e : Source.Expr) : Diagnostic :=
  ⟨line, .notAStatement, e.text ++ " is not a statement"⟩

/-- A result of another type than the declared one. -/
def badReturn (line : Line) (found expected : Ty) : Diagnostic :=
  ⟨line, .returnType,
    "Return type " ++ found.name ++ " doesn't match declared type " ++ expected.name⟩

/-- A return without the result that is declared. -/
def missingReturn (line : Line) (expected : Ty) : Diagnostic :=
  ⟨line, .returnType, "Missing return value of type " ++ expected.name⟩

/-- A return with a result where none is declared. -/
def needlessReturn (line : Line) : Diagnostic := ⟨line, .returnType, "Unexpected return value"⟩

end Diagnostic

/-- The diagnostics of a program: those recorded, in order, and the number of those left out because
of the limit. -/
structure Diagnostics where
  limit : Option Nat
  recorded : Array Diagnostic
  suppressed : Nat

namespace Diagnostics

/-- No diagnostics yet, under a limit. -/
def withLimit (limit : Option Nat) : Diagnostics := ⟨limit, #[], 0⟩

/-- Whether the limit is reached. -/
def isFull (ds : Diagnostics) : Bool := ds.limit.any (· ≤ ds.recorded.size)

/-- Adds a diagnostic, or counts it when the limit is reached. -/
def report (ds : Diagnostics) (d : Diagnostic) : Diagnostics :=
  if ds.isFull then { ds with suppressed := ds.suppressed + 1 }
  else { ds with recorded := ds.recorded.push d }

/-- The number of reports. -/
def total (ds : Diagnostics) : Nat := ds.recorded.size + ds.suppressed

/-- Whether anything was reported. -/
def hasErrors (ds : Diagnostics) : Bool := !ds.recorded.isEmpty || decide (0 < ds.suppressed)

/-- The recorded diagnostics of one kind. -/
def ofKind (ds : Diagnostics) (kind : Mistake) : List Diagnostic :=
  ds.recorded.toList.filter (·.kind == kind)

/-- Checks that a type agrees with the expected one, and reports it if not. -/
def expect (ds : Diagnostics) (line : Line) (found expected : Ty) : Bool × Diagnostics :=
  if found.agrees expected then (true, ds) else (false, ds.report (.mismatch line found expected))

/-- All diagnostics as one message. -/
def text (ds : Diagnostics) : String :=
  toString ds.total ++ " semantic error(s)"
    ++ String.join (ds.recorded.toList.map ("\n  " ++ ·.text))
    ++ (if 0 < ds.suppressed then "\n  ... " ++ toString ds.suppressed ++ " more not shown" else "")

end Diagnostics

end Stacklet
