import Stacklet.Checking.Diagnostic

/-!
# Checks that report

A check never stops at a mistake. It is handed the diagnostics so far, adds what it has to report to them, and
hands them on with its result.
-/

namespace Stacklet

/-- A check: from the diagnostics before it to a result and the diagnostics after it. -/
def Reporting (α : Type) : Type := Diagnostics → α × Diagnostics

namespace Reporting

/-- Runs a check on the diagnostics so far. -/
def run {α : Type} (x : Reporting α) (ds : Diagnostics) : α × Diagnostics := x ds

instance : Monad Reporting where
  pure a := fun ds => (a, ds)
  bind x f := fun ds =>
    let first := x.run ds
    (f first.1).run first.2

instance : LawfulMonad Reporting := LawfulMonad.mk' _ (fun _ => rfl) (fun _ _ => rfl) (fun _ _ _ => rfl)

end Reporting

/-- Reports a diagnostic. -/
def report (d : Diagnostic) : Reporting Unit := fun ds => ((), ds.report d)

/-- Reports a diagnostic unless a condition holds. -/
def reportUnless (holds : Bool) (d : Diagnostic) : Reporting Unit :=
  if holds then pure () else report d

/-- Whether a type agrees with the expected one, which is reported if not. -/
def expect (line : Line) (found expected : Ty) : Reporting Bool := fun ds => ds.expect line found expected

end Stacklet
