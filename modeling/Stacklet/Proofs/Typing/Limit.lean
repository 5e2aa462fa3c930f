import Stacklet.Compile
import Stacklet.Proofs.Typing.Program

/-!
# The limit on diagnostics

The check hands the diagnostics, with their limit, from one report to the next and never looks at them. A limit
truncates what is recorded of a program's mistakes and changes nothing else (`analyze_limit`).
-/

namespace Stacklet

/-- Lowering and assembling find no mistakes. -/
theorem Typed.Program.compile_ne_mistakes (options : Options) (p : Typed.Program) (ds : Diagnostics) :
    p.compile options ≠ .error (.mistakes ds) := by
  simp only [compile]
  intro h
  split at h
  · cases h
  · split at h <;> cases h

namespace Source.Program

/-- A program is refused for its mistakes exactly if it has some, whatever the limit. -/
theorem compile_eq_mistakes_iff (options : Options) (p : Program) :
    (∃ ds, p.compile options = .error (.mistakes ds)) ↔ p.check.reports ≠ [] := by
  have accepted : (p.analyze options.maxErrors).isOk = true ↔ p.check.reports = [] := isOk_analyze_iff
  rw [Ne, ← accepted]
  simp only [compile]
  split
  · next ok =>
    refine ⟨fun refused => ?_, fun mistaken => absurd ok mistaken⟩
    obtain ⟨ds, refused⟩ := refused
    exact absurd refused (Typed.Program.compile_ne_mistakes _ _ _)
  · next mistaken => exact ⟨fun _ => mistaken, fun _ => ⟨_, rfl⟩⟩

/-- A limit only truncates the report of a program's mistakes. -/
theorem analyze_limit (p : Program) (n : Nat) :
    let limited := p.analyze (some n)
    let full := p.analyze none
    limited.program = full.program ∧
    full.diagnostics.suppressed = 0 ∧
    limited.diagnostics.total = full.diagnostics.total ∧
    limited.diagnostics.recorded.toList = full.diagnostics.recorded.toList.take n ∧
    limited.diagnostics.suppressed = (full.diagnostics.recorded.toList.drop n).length ∧
    ∀ options : Options, (∃ ds, p.compile { options with maxErrors := some n } = .error (.mistakes ds)) ↔
      full.diagnostics.recorded.toList ≠ [] := by
  intro limited full
  have limitedKeeps := Diagnostics.keeps_ofReports (some n) p.check.reports
  have fullKeeps := Diagnostics.keeps_ofReports none p.check.reports
  have all := Diagnostics.recorded_ofReports_none p.check.reports
  have hlimited : limited = ⟨p.check.value, .ofReports (some n) p.check.reports⟩ := analyze_eq _ p
  have hfull : full = ⟨p.check.value, .ofReports none p.check.reports⟩ := analyze_eq _ p
  rw [hlimited, hfull, all]
  refine ⟨rfl, ?_, limitedKeeps.total.trans fullKeeps.total.symm, limitedKeeps.recorded, ?_, fun options => ?_⟩
  · rw [Diagnostics.suppressed_ofReports, Diagnostics.kept_none, Nat.sub_self]
  · rw [Diagnostics.suppressed_ofReports, Diagnostics.kept_some, List.length_take, List.length_drop]
    omega
  · exact compile_eq_mistakes_iff _ p

end Source.Program

end Stacklet
