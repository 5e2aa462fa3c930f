/-!
# Paths of the command line

A path given on the command line may not lead upwards.
-/

namespace Stacklet.CommandLine

/-- A path that is refused. -/
inductive PathError where
  | upwards

/-- The wording of an error. -/
def PathError.message : PathError → String
  | .upwards => "Parent directory components ('..') are not allowed in file paths."

/-- The path of a text, if none of its parts leads upwards. -/
def checkPath (text : String) : Except PathError String :=
  if (text.splitOn "/").contains ".." then .error .upwards else .ok text

end Stacklet.CommandLine
