import Stacklet.CommandLine.Path

/-!
# Arguments

A command line names a command and gives it a file and options. An option takes a value, in the same
argument or in the next one, or is a mere flag. After two dashes all arguments are files.
-/

namespace Stacklet.CommandLine

/-- What is to be done with a file. -/
inductive Action where
  | check
  | compile (output : Option String) (listing : Bool)
  | run (json : Bool)
  | dump

/-- A command line. -/
structure Arguments where
  /-- The file with the options of the program. -/
  config : Option String
  file : String
  action : Action

/-- An option that a command line may give. -/
structure Flag where
  name : String
  /-- A letter that stands for the name. -/
  letter : Option Char
  takesValue : Bool

namespace Flag

/-- The file with the options of the program. -/
def config : Flag := ⟨"config", none, true⟩

/-- The file to write the code to. -/
def output : Flag := ⟨"output", some 'o', true⟩

/-- Whether the listing is shown although the code is written to a file. -/
def listing : Flag := ⟨"listing", none, false⟩

/-- Whether the outcome is shown as JSON. -/
def json : Flag := ⟨"json", none, false⟩

end Flag

/-- The options and files that were given, each option with its value. -/
structure Given where
  options : List (String × String)
  files : List String

namespace Given

/-- Nothing given. -/
def empty : Given := ⟨[], []⟩

/-- The value of an option. -/
def value? (g : Given) (flag : Flag) : Option String := g.options.lookup flag.name

/-- Whether an option was given. -/
def has (g : Given) (flag : Flag) : Bool := (g.value? flag).isSome

/-- Adds an option that was not given before. -/
def set? (g : Given) (flag : Flag) (value : String) : Option Given :=
  if g.has flag then none else some { g with options := (flag.name, value) :: g.options }

/-- Adds an option with a path for its value. -/
def setPath? (g : Given) (flag : Flag) (text : String) : Option Given :=
  match checkPath text with
  | .error _ => none
  | .ok path => g.set? flag path

/-- Adds a file. -/
def file? (g : Given) (text : String) : Option Given :=
  match checkPath text with
  | .error _ => none
  | .ok path => some { g with files := g.files ++ [path] }

end Given

/-- An argument by its dashes. -/
inductive Word where
  | plain
  /-- Two dashes and nothing else. -/
  | separator
  | long (name : List Char) (value : Option (List Char))
  | short (letter : Char) (value : Option (List Char))

namespace Word

/-- The form of an argument. One dash alone is a plain argument. -/
def ofText (text : String) : Word :=
  match text.toList with
  | ['-', '-'] => .separator
  | '-' :: '-' :: cs =>
    match cs.dropWhile (· != '=') with
    | _ :: value => .long (cs.takeWhile (· != '=')) (some value)
    | [] => .long cs none
  | '-' :: c :: '=' :: value => .short c (some value)
  | ['-', c] => .short c none
  | '-' :: c :: value => .short c (some value)
  | _ => .plain

/-- The option that an argument is, with its value if it has one. -/
def flag? (flags : List Flag) : Word → Option (Flag × Option String)
  | .long name value =>
    (flags.find? (·.name == String.ofList name)).map fun f => (f, value.map String.ofList)
  | .short letter value =>
    (flags.find? (·.letter == some letter)).map fun f => (f, value.map String.ofList)
  | _ => none

/-- Whether an argument can be the value of the option before it. -/
def isPlain : Word → Bool
  | .plain => true
  | _ => false

end Word

/-- Takes options and files from the front of the arguments. With `toCommand` it ends before the
first plain argument, which names a command; otherwise plain arguments are files. -/
def gather (flags : List Flag) (toCommand : Bool) (given : Given) :
    List String → Option (Given × List String)
  | [] => some (given, [])
  | text :: rest =>
    match Word.ofText text with
    | .plain =>
      if toCommand then some (given, text :: rest)
      else (given.file? text).bind fun given => gather flags toCommand given rest
    | .separator =>
      if toCommand then none else (rest.foldlM Given.file? given).map fun given => (given, [])
    | word =>
      match word.flag? flags with
      | none => none
      | some (flag, value) =>
        match flag.takesValue, value with
        | false, none => (given.set? flag "").bind fun given => gather flags toCommand given rest
        | false, some _ => none
        | true, some value =>
          (given.setPath? flag value).bind fun given => gather flags toCommand given rest
        | true, none =>
          match rest with
          | [] => none
          | value :: rest =>
            if (Word.ofText value).isPlain then
              (given.setPath? flag value).bind fun given => gather flags toCommand given rest
            else none

namespace Action

/-- The options of a command. -/
def flags? : String → Option (List Flag)
  | "check" | "dump" => some []
  | "compile" => some [.output, .listing]
  | "run" => some [.json]
  | _ => none

/-- The action of a command with its options. -/
def ofCommand? (command : String) (given : Given) : Option Action :=
  match command with
  | "check" => some .check
  | "compile" => some (.compile (given.value? .output) (given.has .listing))
  | "run" => some (.run (given.has .json))
  | "dump" => some .dump
  | _ => none

end Action

/-- The command line of some arguments. An option of the command wins over the same one before it. -/
def Arguments.parse? (args : List String) : Option Arguments := do
  let (early, rest) ← gather [.config] true .empty args
  let command :: rest := rest | none
  let flags ← Action.flags? command
  let (given, _) ← gather (.config :: flags) false .empty rest
  let [file] := given.files | none
  return ⟨(given.value? .config).or (early.value? .config), file, ← Action.ofCommand? command given⟩

end Stacklet.CommandLine
