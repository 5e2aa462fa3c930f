import Stacklet.Machine.Value

/-!
# The operand stack

A list of values, the top first, that knows its height.
-/

namespace Stacklet

/-- A stack of values. -/
structure Stack where
  /-- The values, the top first. -/
  items : List Value
  height : Nat
  height_eq : height = items.length

namespace Stack

/-- The stack without values. -/
def empty : Stack := ⟨[], 0, rfl⟩

/-- Puts a value on top. -/
def push (s : Stack) (v : Value) : Stack :=
  ⟨v :: s.items, s.height + 1, by simp [s.height_eq]⟩

/-- Takes the top value, if there is one. -/
def pop? (s : Stack) : Option (Value × Stack) :=
  match h : s.items with
  | [] => none
  | v :: rest => some (v, ⟨rest, s.height - 1, by simp [s.height_eq, h]⟩)

/-- The top value, if there is one. -/
def top? (s : Stack) : Option Value := s.items.head?

@[ext] theorem ext {s t : Stack} (h : s.items = t.items) : s = t := by
  obtain ⟨items, height, hs⟩ := s
  obtain ⟨items', height', ht⟩ := t
  cases h
  cases hs.trans ht.symm
  rfl

@[simp] theorem items_empty : empty.items = [] := rfl

@[simp] theorem items_push (s : Stack) (v : Value) : (s.push v).items = v :: s.items := rfl

@[simp] theorem height_empty : empty.height = 0 := rfl

@[simp] theorem height_push (s : Stack) (v : Value) : (s.push v).height = s.height + 1 := rfl

@[simp] theorem pop?_push (s : Stack) (v : Value) : (s.push v).pop? = some (v, s) := rfl

@[simp] theorem top?_push (s : Stack) (v : Value) : (s.push v).top? = some v := rfl

/-- A stack from which a value can be taken is that value pushed on the rest. -/
theorem eq_push_of_pop? {s t : Stack} {v : Value} (h : s.pop? = some (v, t)) : s = t.push v := by
  unfold pop? at h
  split at h
  · cases h
  · next he =>
    cases h
    exact Stack.ext he

/-- Nothing can be taken from the empty stack alone. -/
theorem pop?_eq_none_iff {s : Stack} : s.pop? = none ↔ s = empty := by
  constructor
  · intro h
    unfold pop? at h
    split at h
    · next he => exact Stack.ext he
    · cases h
  · rintro rfl
    rfl

end Stack

end Stacklet
