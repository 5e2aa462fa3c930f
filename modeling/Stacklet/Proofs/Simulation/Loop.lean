import Stacklet.Proofs.Assembly.Placed
import Stacklet.Proofs.Lowering.Stmt
import Stacklet.Proofs.Simulation.Instr
import Stacklet.Proofs.Typing.WellFormed

/-!
# Jumps and loops on the machine

What comes after a statement depends on how it ends. `Escapes` says that every jump that may leave a
statement is met where the labels of its target stand, and `Implements` that code does what a statement
does for whatever comes after it. A loop is met at its test if each round of it is, since a round takes
at least one jump and evaluation has to account for no more rounds than it has fuel for
(`Loop.run_meets`).
-/

namespace Stacklet

open Typed (IsFresh)

variable {code : Code} {position : Label → Nat} {ok : Store → Prop} {m n : Nat}
  {targets targets' : List (Target × Exits)} {jumps : JumpScope} {env : Surroundings}
  {K K' : Exit → Eval (Option Value)}

/-- Jumps out of a statement are met where they lead, and a return leaves the program. -/
structure Escapes (code : Code) (position : Label → Nat) (ok : Store → Prop) (n : Nat)
    (targets : List (Target × Exits)) (jumps : JumpScope) (K : Exit → Eval (Option Value)) : Prop where
  breaks : ∀ {e ex σ}, e ∈ jumps → targets.lookup e.target = some ex → ok σ →
    Meets code ok (n - 1) ⟨position ex.breakLabel, [], σ⟩ (K (.breaks e.target) σ)
  continues : ∀ {e ex}, e ∈ jumps → e.construct = .loop → targets.lookup e.target = some ex →
    ∃ l, ex.continueLabel = some l ∧
      ∀ σ, ok σ → Meets code ok (n - 1) ⟨position l, [], σ⟩ (K (.continues e.target) σ)
  returns : ∀ value, K (.returns value) = pure value

/-- The code from one position to another does what a statement does, whatever comes after it. -/
def Implements (code : Code) (position : Label → Nat) (ok : Store → Prop) (n : Nat)
    (targets : List (Target × Exits)) (jumps : JumpScope) (start stop : Nat) (part : Eval Exit) : Prop :=
  ∀ m K, m ≤ n → Escapes code position ok m targets jumps K →
    (∀ σ, ok σ → Meets code ok m ⟨stop, [], σ⟩ (K .normal σ)) →
    ∀ σ, ok σ → Meets code ok m ⟨start, [], σ⟩ ((part >>= K) σ)

namespace Escapes

theorem mono (h : Escapes code position ok n targets jumps K) (le : m ≤ n) :
    Escapes code position ok m targets jumps K where
  breaks mem found hok := (h.breaks mem found hok).mono (by omega)
  continues mem loop found := by
    obtain ⟨l, hl, met⟩ := h.continues mem loop found
    exact ⟨l, hl, fun σ hok => (met σ hok).mono (by omega)⟩
  returns := h.returns

theorem congr (h : Escapes code position ok n targets jumps K)
    (same : ∀ e ∈ jumps, targets'.lookup e.target = targets.lookup e.target) :
    Escapes code position ok n targets' jumps K where
  breaks mem found hok := h.breaks mem ((same _ mem).symm.trans found) hok
  continues mem loop found := h.continues mem loop ((same _ mem).symm.trans found)
  returns := h.returns

/-- What comes after the end of a statement says nothing on the jumps out of it. -/
theorem change (h : Escapes code position ok n targets jumps K)
    (breaks : ∀ t, K' (.breaks t) = K (.breaks t)) (continues : ∀ t, K' (.continues t) = K (.continues t))
    (returns : ∀ value, K' (.returns value) = K (.returns value)) :
    Escapes code position ok n targets jumps K' where
  breaks {e ex σ} mem found hok := by
    rw [breaks]
    exact h.breaks mem found hok
  continues {e ex} mem loop found := by
    rw [continues]
    exact h.continues mem loop found
  returns value := by rw [returns, h.returns]

/-- Inside a construct its own jumps are met too. -/
theorem enter {construct : Construct} {target : Target} {ex : Exits}
    (h : Escapes code position ok n targets env.jumps K) (fresh : IsFresh env target)
    (broken : ∀ σ, ok σ → Meets code ok (n - 1) ⟨position ex.breakLabel, [], σ⟩ (K' (.breaks target) σ))
    (continued : construct = .loop → ∃ l, ex.continueLabel = some l ∧
      ∀ σ, ok σ → Meets code ok (n - 1) ⟨position l, [], σ⟩ (K' (.continues target) σ))
    (breaks : ∀ t ≠ target, K' (.breaks t) = K (.breaks t))
    (continues : ∀ t ≠ target, K' (.continues t) = K (.continues t))
    (returns : ∀ value, K' (.returns value) = K (.returns value)) :
    Escapes code position ok n ((target, ex) :: targets) (env.enter construct target).jumps K' where
  breaks {e ex' σ} mem found hok := by
    rcases List.mem_cons.1 mem with rfl | outer
    · rw [List.lookup_cons_self] at found
      cases found
      exact broken σ hok
    · have ne := fresh e outer
      rw [List.lookup_cons, beq_eq_false_iff_ne.2 ne] at found
      rw [breaks e.target ne]
      exact h.breaks outer found hok
  continues {e ex'} mem loop found := by
    rcases List.mem_cons.1 mem with rfl | outer
    · rw [List.lookup_cons_self] at found
      cases found
      exact continued loop
    · have ne := fresh e outer
      rw [List.lookup_cons, beq_eq_false_iff_ne.2 ne] at found
      rw [continues e.target ne]
      exact h.continues outer loop found
  returns value := by rw [returns, h.returns]

end Escapes

namespace Implements

variable {start middle stop : Nat} {first second part : Eval Exit}

theorem congr (h : Implements code position ok n targets jumps start stop part)
    (same : ∀ e ∈ jumps, targets'.lookup e.target = targets.lookup e.target) :
    Implements code position ok n targets' jumps start stop part :=
  fun m K le escapes normal => h m K le (escapes.congr fun e mem => (same e mem).symm) normal

/-- No code does nothing. -/
theorem normal : Implements code position ok n targets jumps start start (pure .normal) :=
  fun _ _ _ _ normal => normal

/-- Code after code does one statement after the other. -/
theorem andThen (h : Implements code position ok n targets jumps start middle first)
    (h' : Implements code position ok n targets jumps middle stop second) :
    Implements code position ok n targets jumps start stop (first.andThen second) := by
  intro m K le escapes normal σ hok
  rw [Eval.andThen, bind_assoc]
  refine h m _ le (escapes.change ?_ ?_ ?_) (h' m K le escapes normal) σ hok
  · exact fun _ => rfl
  · exact fun _ => rfl
  · exact fun _ => rfl

/-- Code may be entered by a jump. -/
theorem goto {l : Label} (stands : Call.Stands code.instrs position start (.jump .goto l))
    (h : Implements code position ok n targets jumps (position l) stop part) :
    Implements code position ok n targets jumps start stop part := by
  intro m K le escapes normal σ hok
  obtain ⟨offset, at_start, leads⟩ := stands
  refine .jump at_start Instr.does_goto leads hok ?_
  exact h (m - 1) K (by omega) (escapes.mono (Nat.sub_le m 1))
    (fun σ hok => (normal σ hok).mono (Nat.sub_le m 1)) σ hok

end Implements

/-! ## Loops -/

theorem Exit.out_self (target : Target) : (Exit.breaks target).out target = .normal := if_pos rfl

theorem Exit.out_of_ne {t target : Target} (ne : t ≠ target) : (Exit.breaks t).out target = .breaks t :=
  if_neg ne

namespace Loop

variable {l : Loop} {done again : Label} {top finish fuel left : Nat} {next : Eval Exit}

/-- The update of a loop, started again by every `continue` in it. -/
theorem runUpdate_meets (fresh : IsFresh env l.target)
    (update : Implements code position ok n ((l.target, ⟨done, some again⟩) :: targets)
      (env.enter .loop l.target).jumps (position again) finish l.update)
    (outer : Escapes code position ok m targets env.jumps K)
    (ends : ∀ σ, ok σ → Meets code ok m ⟨position done, [], σ⟩ (K .normal σ))
    (goes : ∀ σ, ok σ → Meets code ok m ⟨finish, [], σ⟩ ((next >>= K) σ))
    (le : m ≤ n) (enough : m ≤ left) :
    ∀ σ, ok σ → Meets code ok m ⟨position again, [], σ⟩ ((l.runUpdate next left >>= K) σ) := by
  induction left generalizing m with
  | zero => exact fun σ hok => .outOfFuel hok (Nat.le_zero.1 enough)
  | succ left ih =>
    intro σ hok
    rw [runUpdate, bind_assoc]
    refine update m _ le (outer.enter fresh ?_ ?_ ?_ ?_ ?_) goes σ hok
    · intro σ hok
      simp only [Exit.out_self]
      exact (ends σ hok).mono (Nat.sub_le m 1)
    · refine fun _ => ⟨again, rfl, fun σ hok => ?_⟩
      simp only [if_pos]
      exact ih (outer.mono (Nat.sub_le m 1)) (fun σ hok => (ends σ hok).mono (Nat.sub_le m 1))
        (fun σ hok => (goes σ hok).mono (Nat.sub_le m 1)) (by omega) (by omega) σ hok
    · intro t ne
      simp only [Exit.out_of_ne ne, pure_bind]
    · intro t ne
      simp only [if_neg ne, pure_bind]
    · exact fun _ => rfl

/-- A pass through the body and the update. -/
theorem pass_meets {start stop : Nat} (fresh : IsFresh env l.target)
    (body : Implements code position ok n ((l.target, ⟨done, some again⟩) :: targets)
      (env.enter .loop l.target).jumps start stop l.body)
    (outer : Escapes code position ok m targets env.jumps K)
    (ends : ∀ σ, ok σ → Meets code ok m ⟨position done, [], σ⟩ (K .normal σ))
    (continued : ∀ σ, ok σ →
      Meets code ok (m - 1) ⟨position again, [], σ⟩ ((l.runUpdate next fuel >>= K) σ))
    (goes : ∀ σ, ok σ → Meets code ok m ⟨stop, [], σ⟩ ((l.runUpdate next fuel >>= K) σ)) (le : m ≤ n) :
    ∀ σ, ok σ → Meets code ok m ⟨start, [], σ⟩ ((l.pass fuel next >>= K) σ) := by
  intro σ hok
  rw [pass, proceed, bind_assoc]
  refine body m _ le (outer.enter fresh ?_ ?_ ?_ ?_ ?_) goes σ hok
  · intro σ hok
    simp only [Exit.out_self]
    exact (ends σ hok).mono (Nat.sub_le m 1)
  · refine fun _ => ⟨again, rfl, fun σ hok => ?_⟩
    rw [Exit.staysIn, beq_self_eq_true, if_pos rfl]
    exact continued σ hok
  · intro t ne
    simp only [Exit.out_of_ne ne]
    rfl
  · intro t ne
    rw [Exit.staysIn, beq_eq_false_iff_ne.2 ne]
    rfl
  · exact fun _ => rfl

/-- A loop is met at its test if every round is: whatever comes after a round is met there with one
instruction less to account for. -/
theorem run_meets
    (round : ∀ m next, m ≤ n → (∀ σ, ok σ → Meets code ok (m - 1) ⟨top, [], σ⟩ ((next >>= K) σ)) →
      ∀ σ, ok σ → Meets code ok m ⟨top, [], σ⟩
        ((l.test >>= fun holds => (if holds then l.pass fuel next else pure .normal) >>= K) σ))
    (le : m ≤ n) (enough : m ≤ left) :
    ∀ σ, ok σ → Meets code ok m ⟨top, [], σ⟩ ((l.run fuel left >>= K) σ) := by
  induction left generalizing m with
  | zero => exact fun σ hok => .outOfFuel hok (Nat.le_zero.1 enough)
  | succ left ih =>
    intro σ hok
    rw [run, bind_assoc]
    exact round m (l.run fuel left) le (ih (by omega) (by omega)) σ hok

end Loop

end Stacklet
