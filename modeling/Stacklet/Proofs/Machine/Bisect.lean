import Stacklet.Machine.Frame

/-!
# Searching by halving

Halving finds no pair that is not there (`mem_of_bisect`), in whatever order the pairs are. If their keys increase it
finds what going through them finds (`bisect_eq_lookup`): the part that is given up holds only keys that are too great,
or only keys that are too small.
-/

namespace Stacklet

variable {key : Int32} {pairs : List (Int32 × Int32)}

/-- What is found is one of the pairs. -/
theorem mem_of_bisect {offset : Int32} (found : bisect key pairs = some offset) : (key, offset) ∈ pairs := by
  fun_induction bisect key pairs with
  | case1 => cases found
  | case2 offset' => cases found; exact List.mem_cons_self
  | case3 only offset' differs => cases found
  | case4 first second rest pairs half above ih => exact List.mem_of_mem_take (ih found)
  | case5 first second rest pairs half above ih => exact List.mem_of_mem_drop (ih found)

/-- Pairs with strictly increasing keys. -/
abbrev Ascending (pairs : List (Int32 × Int32)) : Prop := pairs.Pairwise (·.1 < ·.1)

theorem lookup_eq_none_of_ne (other : ∀ p ∈ pairs, p.1 ≠ key) : pairs.lookup key = none := by
  rw [List.lookup_eq_none_iff]
  exact fun p mem => bne_iff_ne.2 (other p mem).symm

namespace Ascending

variable {half : Nat} {middle : Int32 × Int32}

theorem lt_of_getElem? (h : Ascending pairs) {i j : Nat} {a b : Int32 × Int32} (before : i < j)
    (ha : pairs[i]? = some a) (hb : pairs[j]? = some b) : a.1 < b.1 := by
  obtain ⟨hi, rfl⟩ := List.getElem?_eq_some_iff.1 ha
  obtain ⟨hj, rfl⟩ := List.getElem?_eq_some_iff.1 hb
  exact List.pairwise_iff_getElem.1 h i j hi hj before

/-- The pairs from the middle on hold no key that is less than that of the middle. -/
theorem lookup_take (h : Ascending pairs) (here : pairs[half]? = some middle) (less : key < middle.1) {count : Nat}
    (enough : half ≤ count) : (pairs.take count).lookup key = pairs.lookup key := by
  have absent : (pairs.drop count).lookup key = none := by
    refine lookup_eq_none_of_ne fun p mem => (Int32.ne_of_lt ?_).symm
    obtain ⟨k, there⟩ := List.mem_iff_getElem?.1 mem
    rw [List.getElem?_drop] at there
    rcases Nat.eq_or_lt_of_le (Nat.le_trans enough (Nat.le_add_right count k)) with same | later
    · rw [← same, here] at there
      cases there
      exact less
    · exact Int32.lt_trans less (h.lt_of_getElem? later here there)
  have whole : ((pairs.take count) ++ (pairs.drop count)).lookup key = pairs.lookup key := by
    rw [List.take_append_drop]
  rw [← whole, List.lookup_append, absent, Option.or_none]

/-- The pairs before the middle hold only keys that are less than that of the middle. -/
theorem lookup_drop (h : Ascending pairs) (here : pairs[half]? = some middle) (least : ¬key < middle.1) :
    (pairs.drop half).lookup key = pairs.lookup key := by
  have absent : (pairs.take half).lookup key = none := by
    refine lookup_eq_none_of_ne fun p mem => Int32.ne_of_lt ?_
    obtain ⟨k, there⟩ := List.mem_iff_getElem?.1 mem
    rw [List.getElem?_take, Option.ite_none_right_eq_some] at there
    obtain ⟨before, there⟩ := there
    exact Int32.lt_of_lt_of_le (h.lt_of_getElem? before there here) (Int32.not_lt.1 least)
  have whole : ((pairs.take half) ++ (pairs.drop half)).lookup key = pairs.lookup key := by
    rw [List.take_append_drop]
  rw [← whole, List.lookup_append, absent, Option.none_or]

end Ascending

/-- Among pairs with increasing keys halving finds what going through them finds. -/
theorem bisect_eq_lookup (key : Int32) (h : Ascending pairs) : bisect key pairs = pairs.lookup key := by
  fun_induction bisect key pairs with
  | case1 => rfl
  | case2 offset => exact (List.lookup_cons_self).symm
  | case3 only offset differs =>
    refine (lookup_eq_none_of_ne fun p mem => ?_).symm
    rw [List.mem_singleton.1 mem]
    exact differs
  | case4 first second rest pairs half above ih =>
    obtain ⟨middle, here, less⟩ := (Option.any_eq_true _ _).1 above
    have enough : half ≤ pairs.length - half := by omega
    rw [ih (h.sublist (List.take_sublist _ _)), h.lookup_take here (of_decide_eq_true less) enough]
  | case5 first second rest pairs half below ih =>
    have inside : half < pairs.length := Nat.div_lt_self (Nat.succ_pos _) (by decide)
    have here : pairs[half]? = some pairs[half] := List.getElem?_eq_getElem inside
    have least : ¬key < pairs[half].1 := by simpa [here] using below
    rw [ih (h.sublist (List.drop_sublist _ _)), h.lookup_drop here least]

/-- Among pairs in no order a key may be missed, and of several pairs with one key it need not be the first. -/
example : bisect 2 [(2, 1), (1, 3)] = none ∧ bisect 2 [(2, 1), (2, 3)] = some 3 := by decide +kernel

end Stacklet
