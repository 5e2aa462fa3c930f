import Stacklet.Json.Numeral

/-!
# Numbers, written and read

A number is made of digits, signs, a point and the mark of an exponent, so that it ends before anything
else. Whole numbers that fit 64 bits are read as they are written, and no other whole number is read.
-/

namespace Stacklet.Json

/-- A whole number fits 64 bits, with a sign or without. -/
def Fits (n : Int) : Prop := -9223372036854775808 ≤ n ∧ n < 18446744073709551616

namespace Numeral

/-! ## What is read -/

/-- A character that may stand in a number. -/
def IsPart (c : Char) : Prop := c.isDigit = true ∨ c ∈ ['-', '+', '.', 'e', 'E']

instance : DecidablePred IsPart := fun _ => inferInstanceAs (Decidable (_ ∨ _))

/-- A text is made of parts of a number if what follows its first digits is. -/
theorem isPart_of_dropWhile {cs : List Char} (rest : ∀ c ∈ cs.dropWhile Char.isDigit, IsPart c) :
    ∀ c ∈ cs, IsPart c := by
  intro c mem
  rw [← List.takeWhile_append_dropWhile (p := Char.isDigit) (l := cs)] at mem
  rcases List.mem_append.1 mem with digit | mem
  · exact .inl (List.all_eq_true.1 List.all_takeWhile c digit)
  · exact rest c mem

theorem mem_exponentSign {c : Char} {cs : List Char} (mem : c ∈ cs) :
    c ∈ ['-', '+'] ∨ c ∈ (exponentSign cs).2 := by
  unfold exponentSign
  split <;> grind

theorem isPart_of_exponent? {cs : List Char} {e : Int} (h : exponent? cs = some e) : ∀ c ∈ cs, IsPart c := by
  unfold exponent? at h
  split at h
  case h_3 => cases h
  all_goals
    simp only at h
    split at h
    · cases h
    · next valid =>
      simp only [Bool.or_eq_true, Bool.not_eq_true', not_or, Bool.not_eq_false] at valid
      intro c mem
      rcases List.mem_cons.1 mem with rfl | mem
      · exact .inr (by decide)
      · rcases mem_exponentSign mem with sign | digit
        · exact .inr (by grind)
        · exact .inl (List.all_eq_true.1 valid.2 c digit)

/-- The digits that are kept fit 64 bits. -/
theorem takeWhole_significand_lt (cs : List Char) {n : Numeral} (small : n.significand < UInt64.size) :
    (n.takeWhole cs).significand < UInt64.size := by
  induction cs generalizing n with
  | nil => exact small
  | cons c cs ih =>
    unfold takeWhole
    split
    · next taken => exact ih (of_decide_eq_true taken)
    · exact small

/-- What a number without its sign can be: a whole number of 64 bits, or a double. -/
theorem unsigned?_cases {negative : Bool} {cs : List Char} {j : Json} (h : unsigned? negative cs = some j) :
    (∀ c ∈ cs, IsPart c) ∧ ((∃ n < UInt64.size, j = whole negative n) ∨ ∃ x, j = .double x) := by
  have marked : ∀ {tail : List Char} {real : Int → Float},
      (exponent? tail).map (fun e => .double (real e)) = some j →
        (∀ c ∈ tail, IsPart c) ∧ ∃ x, j = .double x := by
    intro tail real h
    obtain ⟨e, exponent, rfl⟩ := Option.map_eq_some_iff.1 h
    exact ⟨isPart_of_exponent? exponent, _, rfl⟩
  unfold unsigned? at h
  simp only at h
  split at h
  · cases h
  · split at h
    · next noRest =>
      refine ⟨isPart_of_dropWhile (by simp [noRest]), ?_⟩
      split at h
      · cases h
        exact .inl ⟨_, takeWhole_significand_lt _ (by decide), rfl⟩
      · cases h
        exact .inr ⟨_, rfl⟩
    · next rest point =>
      have parts : (∀ c ∈ rest.dropWhile Char.isDigit, IsPart c) → ∀ c ∈ cs, IsPart c := by
        intro tail
        refine isPart_of_dropWhile ?_
        rw [point]
        exact List.forall_mem_cons.2 ⟨.inr (by decide), isPart_of_dropWhile tail⟩
      split at h
      · cases h
      · split at h
        · next noTail =>
          cases h
          exact ⟨parts (by simp [List.isEmpty_iff.1 noTail]), .inr ⟨_, rfl⟩⟩
        · obtain ⟨tail, real⟩ := marked h
          exact ⟨parts tail, .inr real⟩
    · obtain ⟨tail, real⟩ := marked h
      exact ⟨isPart_of_dropWhile tail, .inr real⟩

/-- What a number can be: a whole number that fits 64 bits, or a double. -/
theorem read?_cases {cs : List Char} {j : Json} (h : read? cs = some j) :
    (∀ c ∈ cs, IsPart c) ∧ ((∃ n, j = .int n ∧ Fits n) ∨ ∃ x, j = .double x) := by
  unfold read? at h
  split at h
  · obtain ⟨parts, ⟨n, small, rfl⟩ | real⟩ := unsigned?_cases h
    · refine ⟨List.forall_mem_cons.2 ⟨.inr (by decide), parts⟩, ?_⟩
      unfold whole
      split
      · next positive => cases positive
      · split
        · exact .inr ⟨_, rfl⟩
        · next fits =>
          refine .inl ⟨_, rfl, ?_⟩
          unfold Fits
          omega
    · exact ⟨List.forall_mem_cons.2 ⟨.inr (by decide), parts⟩, .inr real⟩
  · obtain ⟨parts, ⟨n, small, rfl⟩ | real⟩ := unsigned?_cases h
    · refine ⟨parts, .inl ⟨n, rfl, ?_⟩⟩
      unfold Fits
      have : UInt64.size = 18446744073709551616 := rfl
      omega
    · exact ⟨parts, .inr real⟩

/-! ## What is written -/

theorem takeWhole_eq_ofDigitChars (cs : List Char) {n : Numeral}
    (small : Nat.ofDigitChars 10 cs n.significand < UInt64.size) :
    n.takeWhole cs = { n with significand := Nat.ofDigitChars 10 cs n.significand } := by
  induction cs generalizing n with
  | nil => rfl
  | cons c cs ih =>
    rw [Nat.ofDigitChars_cons] at small ⊢
    have step : n.significand * 10 + digit c = 10 * n.significand + (c.toNat - '0'.toNat) := by
      rw [digit, Nat.mul_comm]
    have le : n.significand * 10 + digit c ≤
        Nat.ofDigitChars 10 cs (10 * n.significand + (c.toNat - '0'.toNat)) := by
      rw [Nat.ofDigitChars_eq_ofDigitChars_zero, step]
      exact Nat.le_add_right_of_le (Nat.le_mul_of_pos_left _ (Nat.pow_pos (by decide)))
    have fits : fits n.significand c = true := decide_eq_true (by omega)
    rw [takeWhole, if_pos fits, ih (by rw [step]; exact small), step]

theorem head?_toDigits_ne_zero {n : Nat} (pos : 0 < n) : (Nat.toDigits 10 n).head? ≠ some '0' := by
  induction n using Nat.strongRecOn with
  | ind n ih =>
    by_cases small : n < 10
    · rw [Nat.toDigits_of_lt_base small]
      have digits : ∀ n < 10, 0 < n → [Nat.digitChar n].head? ≠ some '0' := by decide
      exact digits n small pos
    · rw [Nat.toDigits_of_base_le (by decide) (by omega), List.head?_append, Option.or_of_isSome
        (List.isSome_head?.2 Nat.toDigits_ne_nil)]
      exact ih (n / 10) (by omega) (by omega)

/-- The digits of a number of 64 bits are read as that number. -/
theorem unsigned?_toDigits (negative : Bool) {n : Nat} (small : n < UInt64.size) :
    unsigned? negative (Nat.toDigits 10 n) = some (whole negative n) := by
  have digits : ∀ c ∈ Nat.toDigits 10 n, c.isDigit = true := fun c mem =>
    Nat.isDigit_of_mem_toDigits (by decide) (by decide) mem
  have taken : (Nat.toDigits 10 n ++ []).takeWhile Char.isDigit = Nat.toDigits 10 n ++ [] :=
    List.takeWhile_append_of_pos digits
  have rest : (Nat.toDigits 10 n ++ []).dropWhile Char.isDigit = [] := List.dropWhile_append_of_pos digits
  rw [List.append_nil] at taken rest
  have kept : takeWhole ⟨0, 0⟩ (Nat.toDigits 10 n) = ⟨n, 0⟩ := by
    rw [takeWhole_eq_ofDigitChars _ (by simpa using small), Nat.ofDigitChars_ten_toDigits]
  have leading : (Nat.toDigits 10 n).head? = some '0' → (Nat.toDigits 10 n).length = 1 := by
    intro head
    rcases Nat.eq_zero_or_pos n with rfl | pos
    · rfl
    · exact absurd head (head?_toDigits_ne_zero pos)
  unfold unsigned?
  simp only [taken, rest, kept]
  rw [if_neg]
  · rfl
  · simpa [Nat.toDigits_ne_nil] using leading

/-- A whole number that fits 64 bits is read as it is written. -/
theorem read?_toString {n : Int} (fits : Fits n) : read? (toString n).toList = some (.int n) := by
  obtain ⟨least, most⟩ := fits
  have size : UInt64.size = 18446744073709551616 := rfl
  rw [Int.toString_eq_repr, Int.repr_eq_if]
  split
  · next nonneg =>
    have noSign : ∀ cs, Nat.toDigits 10 n.toNat ≠ '-' :: cs := by
      intro cs eq
      have digit := Nat.isDigit_of_mem_toDigits (b := 10) (by decide) (by decide) (eq ▸ List.mem_cons_self)
      cases digit
    rw [Nat.toList_repr, read?, unsigned?_toDigits false (by omega)]
    · simp [whole, Int.toNat_of_nonneg nonneg]
    · exact noSign
  · next negative =>
    have minus : (-n).toNat = -n := Int.toNat_of_nonneg (by omega)
    rw [String.toList_append, Nat.toList_repr]
    show unsigned? true (Nat.toDigits 10 (-n).toNat) = _
    rw [unsigned?_toDigits true (by omega), whole, if_neg (by decide), if_neg (by omega), minus, Int.neg_neg]

end Numeral

end Stacklet.Json
