import Stacklet.Typed.Basic

/-!
# Where jumps lead

A `break` leaves the innermost loop or switch around it, and a `continue` repeats the innermost loop.
-/

namespace Stacklet

/-- The constructs that jumps refer to. -/
inductive Construct where
  | loop
  | switch
deriving DecidableEq

/-- A construct around a statement. -/
structure Enclosing where
  construct : Construct
  target : Target
deriving DecidableEq

/-- The constructs around a statement, the innermost first. -/
abbrev JumpScope := List Enclosing

namespace JumpScope

/-- The construct that a `break` leaves. -/
def breakTarget? (scope : JumpScope) : Option Target := scope.head?.map (·.target)

/-- The loop that a `continue` repeats. -/
def continueTarget? (scope : JumpScope) : Option Target :=
  (scope.find? (·.construct == .loop)).map (·.target)

end JumpScope

end Stacklet
