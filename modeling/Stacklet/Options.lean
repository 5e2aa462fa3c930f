import Stacklet.Decimal.Style

/-!
# Options

The options of checking, lowering and running, with their defaults and the limits on them.
-/

namespace Stacklet

/-- The options of a program's way from its tree to its outcome. -/
structure Options where
  /-- The number of mistakes to record. -/
  maxErrors : Option Nat
  /-- Whether the code is verified. -/
  verifyStack : Bool
  /-- The fraction of a table that has to be keys for a switch to become one. -/
  minTableDensity : Float
  /-- The number of instructions that a run may execute. -/
  maxSteps : Nat

/-- A text that holds no options, or a value that an option may not have. -/
inductive OptionsError where
  | unreadable
  | density (value : Float)
  | noSteps

namespace OptionsError

/-- A density in a message is written without an exponent, and a whole one without a point. -/
def densityStyle : Decimal.Style where
  positional := none
  keepsPoint := false
  plus := false
  tie := .up

/-- The wording of an error. -/
def message : OptionsError → String
  | .unreadable => "invalid options"
  | .density value =>
    "switch.min_table_density must be within 0..=1, got " ++ densityStyle.write value
  | .noSteps => "vm.max_steps must be positive"

end OptionsError

namespace Options

/-- The options when none are given. -/
def standard : Options where
  maxErrors := none
  verifyStack := true
  minTableDensity := 0.5
  maxSteps := 10000000

/-- Checks the limits: a density is a fraction, and a run may execute something. -/
def validate (o : Options) : Except OptionsError Options :=
  if !(0.0 ≤ o.minTableDensity && o.minTableDensity ≤ 1.0) then .error (.density o.minTableDensity)
  else if o.maxSteps = 0 then .error .noSteps
  else .ok o

end Options

end Stacklet
