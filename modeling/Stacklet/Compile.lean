import Stacklet.Assembly.Assembler
import Stacklet.Checking.Program
import Stacklet.Lowering.Stmt
import Stacklet.Options

/-!
# Compiling

A program is checked, lowered and assembled. Lowering sees only programs in which the check found no
mistake.
-/

namespace Stacklet

/-- A reason why a program does not compile. -/
inductive CompileError where
  | mistakes (diagnostics : Diagnostics)
  | lowering (cause : LowerError)
  | assembly (cause : AssembleError)

namespace CompileError

/-- The wording of an error, without the cause of a cause. -/
def headline : CompileError → String
  | .mistakes diagnostics => diagnostics.text
  | .lowering cause => cause.message
  | .assembly cause => cause.headline

/-- The wording of an error. -/
def message : CompileError → String
  | .mistakes diagnostics => diagnostics.text
  | .lowering cause => cause.message
  | .assembly cause => cause.message

end CompileError

/-- Lowers and assembles a checked program. -/
def Typed.Program.compile (options : Options) (p : Typed.Program) : Except CompileError Code :=
  let lowered := p.lower.run
  match lowered.result with
  | .error e => .error (.lowering e)
  | .ok () =>
    let assembly := ⟨options.minTableDensity, options.verifyStack⟩
    match (Assembler.ofCalls lowered.calls).finish assembly p.name p.maxLocals p.fields with
    | .error e => .error (.assembly e)
    | .ok code => .ok code

/-- Checks, lowers and assembles a program. -/
def Source.Program.compile (options : Options) (p : Source.Program) : Except CompileError Code :=
  let analysis := p.analyze options.maxErrors
  if analysis.isOk then analysis.program.compile options else .error (.mistakes analysis.diagnostics)

end Stacklet
