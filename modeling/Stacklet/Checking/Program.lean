import Stacklet.Checking.Stmt

/-!
# Checking programs

The check of a program gives a typed tree in any case, and all that it has to report. The tree is fit
for lowering only when nothing was reported.
-/

namespace Stacklet

/-- The result of checking a program. -/
structure Analysis where
  program : Typed.Program
  diagnostics : Diagnostics

/-- Whether the program has no mistakes. -/
def Analysis.isOk (a : Analysis) : Bool := !a.diagnostics.hasErrors

namespace Source.Program

/-- Enters fields from an index on; of two with one name the first counts. Indices are numbers of 16
bits, the last of which stands for all beyond it. -/
def enterFields (names : Names) (index : Nat) : List FieldDecl → Reporting Names
  | [] => pure names
  | field :: rest =>
    match names.addField? (UInt16.ofNat (min index 65535)) field with
    | some names => enterFields names (index + 1) rest
    | none => do
      report (.repeatedField field.name)
      enterFields names (index + 1) rest

/-- Checks a program: its fields, then its body in the outermost scope. -/
def check (p : Program) : Reporting Typed.Program := do
  let names ← enterFields .empty 0 p.fields
  let checked ← (Stmt.checkAll ⟨p.returns, []⟩ p.body).run ⟨names, 0⟩
  return {
    name := p.name
    fields := p.fields
    returns := p.returns
    maxLocals := checked.2.names.nextSlot
    body := checked.1 }

/-- Checks a program, with a limit on the mistakes that are recorded. -/
def analyze (limit : Option Nat) (p : Program) : Analysis :=
  let checked := p.check.run (.withLimit limit)
  ⟨checked.1, checked.2⟩

end Source.Program

end Stacklet
