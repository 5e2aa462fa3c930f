import Stacklet.Text.Blank

/-!
# The trace setting

The text of the trace setting turns tracing on or off, and may name what is traced.
-/

namespace Stacklet.CommandLine.Trace

/-- The words that turn tracing off. -/
def offWords : List String := ["0", "false", "off"]

/-- The words that turn tracing on and name nothing. -/
def onWords : List String := ["1", "true", "on"]

/-- Whether a setting turns tracing on. -/
def isOn (setting : String) : Bool :=
  let text := Text.trim setting
  !text.isEmpty && !offWords.any (Text.sameLetters text)

/-- What a setting names to be traced. A mere yes names nothing. -/
def filter? (setting : String) : Option String :=
  let text := Text.trim setting
  if text.isEmpty || onWords.any (Text.sameLetters text) then none else some text

end Stacklet.CommandLine.Trace
