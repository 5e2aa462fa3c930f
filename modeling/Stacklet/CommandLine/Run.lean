import Stacklet.Code.Json
import Stacklet.CommandLine.Arguments
import Stacklet.Compile
import Stacklet.Json.Reader
import Stacklet.Json.Writer
import Stacklet.Machine.Run
import Stacklet.Options.Toml
import Stacklet.Source.Json
import Stacklet.Source.Outline

/-!
# Running commands

A command reads the options and the program, does its work, and ends with a `Report` of what is to be
shown. It reaches files only through two operations, so that it runs on any store of files.
-/

namespace Stacklet.CommandLine

/-- The operations on files. -/
structure Files (m : Type → Type) where
  /-- The text of a file, if it can be read. -/
  read? : String → m (Option String)
  /-- Writes a file, and tells whether that was possible. -/
  write : String → String → m Bool

/-- What a command shows, and its exit status. -/
structure Report where
  status : UInt32
  out : String
  err : String

/-- A reason why a command fails. -/
inductive Failure where
  | usage
  | unreadableOptions (path : String)
  | invalidOptions (path : String)
  | unreadableProgram (path : String)
  | invalidProgram (path : String)
  | compile (cause : CompileError)
  | run (name : String) (cause : RunError)
  | unwritable (path : String)

namespace Failure

/-- The mistakes of a program, each on a line, and their number. -/
def mistakesText (ds : Diagnostics) : String :=
  String.join (ds.recorded.toList.map ("error: " ++ ·.text ++ "\n"))
    ++ (if 0 < ds.suppressed then "error: " ++ toString ds.suppressed ++ " more not shown\n" else "")
    ++ toString ds.total ++ " error(s)\n"

/-- What is shown for a failure. -/
def text : Failure → String
  | .usage => "Usage: [--config FILE] check|compile|run|dump FILE\n"
  | .unreadableOptions path => "Error: reading " ++ path ++ "\n"
  | .invalidOptions path => "Error: loading options from " ++ path ++ "\n"
  | .unreadableProgram path => "Error: Failed to read file '" ++ path ++ "'\n"
  | .invalidProgram path => "Error: '" ++ path ++ "' is not a valid unit\n"
  | .compile (.mistakes ds) => mistakesText ds
  | .compile cause => "Error: " ++ cause.headline ++ "\n"
  | .run name cause => "Error: " ++ cause.message name ++ "\n"
  | .unwritable path => "Error: Failed to write '" ++ path ++ "'\n"

/-- The exit status of a failure. -/
def status : Failure → UInt32
  | .usage => 2
  | _ => 1

end Failure

/-- A command in progress: what it shows on the error channel, and a failure that ends it. -/
abbrev Session (m : Type → Type) := ExceptT Failure (StateT String m)

section

variable {m : Type → Type} [Monad m]

/-- Shows a text on the error channel. -/
def note (text : String) : Session m Unit := modify (· ++ text)

/-- Goes on with a value, or fails. -/
def need {α : Type} (failure : Failure) : Option α → Session m α
  | some a => pure a
  | none => throw failure

/-- Reads the options from the file that is named, if one is. -/
def loadOptions (files : Files m) : Option String → Session m Options
  | none => pure .standard
  | some path => do
    let text ← need (.unreadableOptions path) (← files.read? path)
    need (.invalidOptions path) (Options.parse text).toOption

/-- Reads a program. -/
def loadProgram (files : Files m) (path : String) : Session m Source.Program := do
  let text ← need (.unreadableProgram path) (← files.read? path)
  need (.invalidProgram path) ((Json.parse? text).bind Source.Program.ofJson?)

/-- Compiles a program. -/
def compileProgram (options : Options) (p : Source.Program) : Session m Code :=
  match p.compile options with
  | .ok code => pure code
  | .error e => throw (.compile e)

/-- Does what a command asks for, and gives back what it shows. With `showsCode` a compiled program
is also listed on the error channel. -/
def perform (files : Files m) (showsCode : Bool) (args : Arguments) : Session m String := do
  let options ← loadOptions files args.config
  let p ← loadProgram files args.file
  match args.action with
  | .check =>
    let ds := (p.analyze options.maxErrors).diagnostics
    if ds.hasErrors then throw (.compile (.mistakes ds)) else return p.name ++ ": ok\n"
  | .compile output listing =>
    let code ← compileProgram options p
    if showsCode then note ("-- bytecode for " ++ args.file ++ " --\n" ++ code.listing)
    match output with
    | none => return code.listing
    | some path =>
      if ← files.write path code.toJson.indented then
        return if listing then code.listing else ""
      else throw (.unwritable path)
  | .run json =>
    let code ← compileProgram options p
    match code.run options.maxSteps with
    | .error e => throw (.run code.name e)
    | .ok outcome => return if json then outcome.toJson.indented ++ "\n" else outcome.text
  | .dump => return p.outline.toJson.indented ++ "\n"

/-- Runs a command line. -/
def run (files : Files m) (showsCode : Bool) (args : List String) : m Report := do
  let session : Session m String := do
    perform files showsCode (← need .usage (Arguments.parse? args))
  let (result, err) ← session.run.run ""
  return match result with
    | .ok out => ⟨0, out, err⟩
    | .error failure => ⟨failure.status, "", err ++ failure.text⟩

end

end Stacklet.CommandLine
