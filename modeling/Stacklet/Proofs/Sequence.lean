/-!
# Computations that may fail

Facts that several parts of the theory use: on computations in sequence, on one computation for all items
of a list, and on what is found in one.
-/

namespace Stacklet

/-- A computation over a list that gives results gives one for each of its items. -/
theorem map_eq_of_mapM {ε α β : Type} {f : α → Except ε β} {xs : List α} {ys : List β}
    (h : xs.mapM f = .ok ys) : xs.map f = ys.map .ok := by
  induction xs generalizing ys with
  | nil => cases h; rfl
  | cons x xs ih =>
    rw [List.mapM_cons] at h
    cases hx : f x with
    | error e => rw [hx] at h; cases h
    | ok z =>
      rw [hx] at h
      cases hm : xs.mapM f with
      | error e => rw [hm] at h; cases h
      | ok zs =>
        rw [hm] at h
        cases h
        rw [List.map_cons, List.map_cons, hx, ih hm]

/-- A computation over a list gives the results of its items. -/
theorem mapM_eq_ok {ε α β : Type} {f : α → Except ε β} {g : α → β} {xs : List α}
    (h : ∀ x ∈ xs, f x = .ok (g x)) : xs.mapM f = .ok (xs.map g) := by
  induction xs with
  | nil => rfl
  | cons x xs ih =>
    rw [List.mapM_cons, h x List.mem_cons_self, ih fun x hx => h x (List.mem_cons_of_mem _ hx)]
    rfl

/-- A computation over a list gives results as soon as it fails on none of its items. -/
theorem exists_mapM_eq_ok {ε α β : Type} {f : α → Except ε β} {xs : List α}
    (h : ∀ x ∈ xs, ∃ y, f x = .ok y) : ∃ ys, xs.mapM f = .ok ys := by
  induction xs with
  | nil => exact ⟨[], rfl⟩
  | cons x xs ih =>
    obtain ⟨y, hy⟩ := h x List.mem_cons_self
    obtain ⟨ys, hys⟩ := ih fun x hx => h x (List.mem_cons_of_mem _ hx)
    exact ⟨y :: ys, by rw [List.mapM_cons, hy, hys]; rfl⟩

/-- The results of a computation over a list are those of its items. -/
theorem mem_of_mapM {ε α β : Type} {f : α → Except ε β} {xs : List α} {ys : List β}
    (h : xs.mapM f = .ok ys) {y : β} (hy : y ∈ ys) : ∃ x ∈ xs, f x = .ok y := by
  have mem : (.ok y : Except ε β) ∈ xs.map f := map_eq_of_mapM h ▸ List.mem_map_of_mem hy
  exact List.mem_map.1 mem

/-- Each item of a list has its result in that of a computation over it. -/
theorem exists_of_mapM {ε α β : Type} {f : α → Except ε β} {xs : List α} {ys : List β}
    (h : xs.mapM f = .ok ys) {x : α} (hx : x ∈ xs) : ∃ y ∈ ys, f x = .ok y := by
  have mem : f x ∈ ys.map Except.ok := map_eq_of_mapM h ▸ List.mem_map_of_mem hx
  obtain ⟨y, hy, e⟩ := List.mem_map.1 mem
  exact ⟨y, hy, e.symm⟩

/-- The result of each item stands at the same place. -/
theorem getElem?_of_mapM {ε α β : Type} {f : α → Except ε β} {xs : List α} {ys : List β}
    (h : xs.mapM f = .ok ys) {k : Nat} {x : α} (hx : xs[k]? = some x) :
    ∃ y, ys[k]? = some y ∧ f x = .ok y := by
  have same := congrArg (·[k]?) (map_eq_of_mapM h)
  simp only [List.getElem?_map, hx, Option.map_some] at same
  obtain ⟨y, hy, e⟩ := Option.map_eq_some_iff.1 same.symm
  exact ⟨y, hy, e.symm⟩

theorem length_of_mapM {ε α β : Type} {f : α → Except ε β} {xs : List α} {ys : List β}
    (h : xs.mapM f = .ok ys) : ys.length = xs.length := by
  have same := congrArg List.length (map_eq_of_mapM h)
  rw [List.length_map, List.length_map] at same
  exact same.symm

/-- What is found for a key stands with it in the list. -/
theorem mem_of_lookup {α β : Type} [BEq α] [LawfulBEq α] {pairs : List (α × β)} {key : α} {value : β}
    (h : pairs.lookup key = some value) : (key, value) ∈ pairs := by
  obtain ⟨before, after, rfl, -⟩ := List.lookup_eq_some_iff.1 h
  exact List.mem_append_right _ List.mem_cons_self

/-- What is found for a key after a change of all values. -/
theorem lookup_map_snd {α β γ : Type} [BEq α] (pairs : List (α × β)) (f : β → γ) (key : α) :
    (pairs.map fun pair => (pair.1, f pair.2)).lookup key = (pairs.lookup key).map f := by
  induction pairs with
  | nil => rfl
  | cons pair pairs ih =>
    rw [List.map_cons, List.lookup_cons, List.lookup_cons, ih]
    cases key == pair.1 <;> rfl

/-- A sequence that gives a result runs through in both parts. -/
theorem except_bind_eq_ok {ε α β : Type} {x : Except ε α} {g : α → Except ε β} {b : β}
    (h : (x >>= g) = .ok b) : ∃ a, x = .ok a ∧ g a = .ok b := by
  cases x with
  | error e => cases h
  | ok a => exact ⟨a, rfl, h⟩

/-- What runs in sequence and gives a result runs through in both parts. -/
theorem bind_eq_ok {ε σ α β : Type} {x : StateT σ (Except ε) α} {g : α → StateT σ (Except ε) β}
    {s s' : σ} {b : β} (h : (x >>= g) s = .ok (b, s')) :
    ∃ a s₁, x s = .ok (a, s₁) ∧ g a s₁ = .ok (b, s') := by
  change (x s >>= fun p => g p.1 p.2) = .ok (b, s') at h
  cases hx : x s with
  | error e => rw [hx] at h; cases h
  | ok p => rw [hx] at h; exact ⟨p.1, p.2, rfl, h⟩

theorem bind_of_ok {ε σ α β : Type} {x : StateT σ (Except ε) α} {g : α → StateT σ (Except ε) β}
    {s s₁ : σ} {a : α} (h : x s = .ok (a, s₁)) : (x >>= g) s = g a s₁ := by
  change (x s >>= fun p => g p.1 p.2) = _
  rw [h]
  rfl

theorem bind_of_error {ε σ α β : Type} {x : StateT σ (Except ε) α} {g : α → StateT σ (Except ε) β}
    {s : σ} {e : ε} (h : x s = .error e) : (x >>= g) s = .error e := by
  change (x s >>= fun p => g p.1 p.2) = _
  rw [h]
  rfl

/-- What runs in sequence and fails does so in its first part or in the second. -/
theorem bind_eq_error {ε σ α β : Type} {x : StateT σ (Except ε) α} {g : α → StateT σ (Except ε) β}
    {s : σ} {e : ε} (h : (x >>= g) s = .error e) :
    x s = .error e ∨ ∃ a s₁, x s = .ok (a, s₁) ∧ g a s₁ = .error e := by
  change (x s >>= fun p => g p.1 p.2) = .error e at h
  cases hx : x s with
  | error e' => rw [hx] at h; cases h; exact .inl rfl
  | ok p => rw [hx] at h; exact .inr ⟨p.1, p.2, rfl, h⟩

end Stacklet
