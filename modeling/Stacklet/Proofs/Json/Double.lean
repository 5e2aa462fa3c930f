import Stacklet.Proofs.Json.Numeral

/-!
# The double of a whole number

Where a double stands for a whole number that fits 64 bits, it is finite (`isFinite_ofInt`). The exponent
of a double that is rounded is bounded by that of the number and by the bits of its mantissa, and a
double with an exponent within the range of the format is no infinity.
-/

namespace Stacklet.Json

open Float.Model Float.Model.UnpackedFloat

/-- What holds of both branches holds of the choice between them. -/
theorem holds_dite {P : UnpackedFloat → Prop} {c : Prop} [Decidable c] {u : c → UnpackedFloat}
    {v : ¬ c → UnpackedFloat} (pos : ∀ h, P (u h)) (neg : ∀ h, P (v h)) : P (if h : c then u h else v h) := by
  by_cases h : c
  · rw [dif_pos h]
    exact pos h
  · rw [dif_neg h]
    exact neg h

/-- The number is finite and has an exponent of at most `k`. -/
inductive AtMost (k : Int) : UnpackedFloat → Prop where
  | zero (s : Sign) : AtMost k (.zero s)
  | finite {s : Sign} {m : Nat} {e : Int} {pos : 0 < m} (le : e ≤ k) : AtMost k (.finite s m e pos)

theorem AtMost.isFinite {k : Int} {u : UnpackedFloat} (h : AtMost k u) : u.isFinite = true := by
  cases h <;> rfl

/-! ## Rounding -/

theorem exponent_shiftToTargetExponent (m : Nat) (e : Int) (a : Accuracy) :
    (shiftToTargetExponent Format.binary64 m e a).2 = max e (max (m.log2 + 1 + e - 53) (-1074)) := by
  have bits : (Format.binary64.mantissaBits : Int) = 53 := rfl
  have least : Format.binary64.minExponent = -1074 := rfl
  simp only [shiftToTargetExponent, shiftToExponent, Format.targetExponent, totalExponent, bits, least]
  omega

theorem mantissa_shiftRight_le (em : ExtendedMantissa) (n : Nat) : (em >>> n).mantissa ≤ em.mantissa := by
  induction n with
  | zero => exact Nat.le_refl _
  | succ n ih => exact Nat.le_trans (Nat.div_le_self _ _) ih

theorem mantissa_shiftToTargetExponent_le (m : Nat) (e : Int) (a : Accuracy) :
    (shiftToTargetExponent Format.binary64 m e a).1.mantissa ≤ m := by
  refine Nat.le_trans (mantissa_shiftRight_le _ _) (Nat.le_of_eq ?_)
  cases a with
  | exact => rfl
  | inexact o => cases o <;> rfl

theorem roundedMantissa_le (em : ExtendedMantissa) : em.roundedMantissa ≤ em.mantissa + 1 := by
  obtain ⟨m, r, s⟩ := em
  cases r <;> cases s <;>
    simp [ExtendedMantissa.roundedMantissa, ExtendedMantissa.accuracy, Accuracy.roundToNearestEven]
  omega

/-- Rounding shifts the mantissa by no more than its bits, once before and once after it is rounded. -/
theorem atMost_roundWithAccuracy {s : Sign} {m b : Nat} {e k : Int} {a : Accuracy} (small : m.log2 < b)
    (le : e + 2 * b + 1 ≤ k) (least : -1074 + b ≤ k) :
    AtMost k (roundWithAccuracy Format.binary64 s m e a) := by
  have rounded : ∀ r ≤ m + 1, r.log2 ≤ b := by
    intro r bound
    by_cases zero : r = 0
    · simp [zero]
    · have below : m + 1 ≤ 2 ^ b := Nat.le_trans Nat.lt_log2_self (Nat.pow_le_pow_right (by decide) small)
      have : r.log2 < b + 1 := (Nat.log2_lt zero).2 (by rw [Nat.pow_succ]; omega)
      omega
  have second := rounded _ (Nat.le_trans (roundedMantissa_le (shiftToTargetExponent Format.binary64 m e a).1)
    (Nat.succ_le_succ (mantissa_shiftToTargetExponent_le m e a)))
  unfold roundWithAccuracy
  dsimp only
  refine holds_dite (fun _ => .zero s) fun _ => .finite ?_
  rw [exponent_shiftToTargetExponent, exponent_shiftToTargetExponent]
  omega

theorem log2_shiftLeft_lt {m n b : Nat} (small : m < UInt64.size) (le : 64 + n ≤ b) : (m <<< n).log2 < b := by
  by_cases zero : m <<< n = 0
  · simp [zero]
    omega
  · refine (Nat.log2_lt zero).2 ?_
    rw [Nat.shiftLeft_eq]
    calc m * 2 ^ n < 2 ^ 64 * 2 ^ n := Nat.mul_lt_mul_of_pos_right small (Nat.pow_pos (by decide))
      _ = 2 ^ (64 + n) := (Nat.pow_add 2 64 n).symm
      _ ≤ 2 ^ b := Nat.pow_le_pow_right (by decide) le

theorem atMost_round {s : Sign} {m : Nat} (small : m < UInt64.size) :
    AtMost 235 (UnpackedFloat.round Format.binary64 s m 0) := by
  have bits : (Format.binary64.mantissaBits : Int) = 53 := rfl
  have least : Format.binary64.minExponent = -1074 := rfl
  unfold UnpackedFloat.round decreaseExponent
  simp only [Format.targetExponent, totalExponent, bits, least]
  exact atMost_roundWithAccuracy (b := 117) (log2_shiftLeft_lt small (by omega)) (by omega) (by omega)

theorem atMost_mul_finite {s t : Sign} {m n b : Nat} {e f k : Int} {p : 0 < m} {q : 0 < n}
    (small : (m * n).log2 < b) (le : e + f + 2 * b + 1 ≤ k) (least : -1074 + b ≤ k) :
    AtMost k (UnpackedFloat.mul Format.binary64 (.finite s m e p) (.finite t n f q)) :=
  atMost_roundWithAccuracy small le least

theorem atMost_ofScientific {m : Nat} (small : m < UInt64.size) :
    AtMost 396 (UnpackedFloat.ofScientific Format.binary64 m 0) := by
  unfold UnpackedFloat.ofScientific
  refine holds_dite (fun _ => .zero _) fun _ => ?_
  have large : ¬ (0 : Int) < -((2 ^ 11 : Int) + (m.log2 : Int)) := by omega
  rw [if_neg (by decide), if_neg large, if_pos (by decide)]
  refine atMost_mul_finite (b := 118) ?_ (by decide) (by decide)
  have one : 10 ^ (0 : Int).toNat = 1 := rfl
  rw [one, Nat.mul_one]
  exact log2_shiftLeft_lt small (by decide)

/-! ## Packing -/

theorem atMost_unpack_packComponents {s : Sign} {exponent : BitVec 11} {mantissa : BitVec 52} {k : Int}
    (proper : exponent.toNat < 2047) (le : exponent.toNat - 1075 ≤ k) (least : -1074 ≤ k) :
    AtMost k (UnpackedFloat.unpack Format.binary64 (packComponents Format.binary64 s exponent mantissa)) := by
  have same : unpackExponent (packComponents Format.binary64 s exponent mantissa) = exponent :=
    unpackExponent_packComponents
  have notInfinite : exponent ≠ -1#11 := by
    rintro rfl
    revert proper
    decide
  unfold UnpackedFloat.unpack
  dsimp only
  rw [if_neg (by rw [same]; exact notInfinite)]
  refine iteInduction (fun zero => ?_) fun _ => .finite ?_
  · refine holds_dite (fun _ => .zero _) fun _ => .finite ?_
    rw [zero]
    exact least
  · rw [same]
    show (exponent.toNat : Int) - (1023 + 52) ≤ k
    omega

/-- A number with an exponent within the range of the format stays finite when it is packed. -/
theorem AtMost.unpack_pack {u : UnpackedFloat} {k : Int} (h : AtMost k u) (least : -1074 ≤ k)
    (range : k ≤ 971) :
    AtMost k (UnpackedFloat.unpack Format.binary64 (UnpackedFloat.pack Format.binary64 u)) := by
  have bias : (Format.binary64.exponentBias : Int) = 1023 := rfl
  have zero : ((0#11).toNat : Int) - 1075 ≤ k := by
    show (0 : Int) - 1075 ≤ k
    omega
  cases h with
  | zero s => exact atMost_unpack_packComponents (by decide) zero least
  | @finite s m e pos le =>
    unfold UnpackedFloat.pack
    simp only [bias]
    rw [if_neg (by show ¬ 2048 ≤ _; omega)]
    split
    · have value : (BitVec.ofNat 11 (e + 1023 + (52 : Nat)).toNat).toNat = (e + 1023 + (52 : Nat)).toNat := by
        rw [BitVec.toNat_ofNat, Nat.mod_eq_of_lt (by omega)]
      exact atMost_unpack_packComponents (by rw [value]; omega) (by rw [value]; omega) least
    · exact atMost_unpack_packComponents (by decide) zero least

theorem log2_lt_of_unpack {b : BitVec Format.binary64.numBits} {s : Sign} {m : Nat} {e : Int}
    {pos : 0 < m} (h : UnpackedFloat.unpack Format.binary64 b = .finite s m e pos) : m.log2 < 53 := by
  refine (Nat.log2_lt (Nat.ne_of_gt pos)).2 ?_
  let Bounded (u : UnpackedFloat) : Prop := u = .finite s m e pos → m < 2 ^ 53
  refine (?_ : Bounded (UnpackedFloat.unpack Format.binary64 b)) h
  unfold UnpackedFloat.unpack
  refine iteInduction (fun _ => iteInduction (fun _ => nofun) fun _ => nofun) fun _ => iteInduction ?_ ?_
  · refine fun _ => holds_dite (fun _ => nofun) fun _ same => ?_
    cases same
    exact Nat.lt_trans (BitVec.isLt _) (by decide)
  · intro _ same
    cases same
    exact BitVec.isLt _

/-! ## Doubles -/

theorem AtMost.neg {x : Float} {k : Int} (h : AtMost k x.toModel.unpack) (least : -1074 ≤ k)
    (range : k ≤ 971) : AtMost k (-x).toModel.unpack := by
  refine AtMost.unpack_pack ?_ least range
  generalize x.toModel.unpack = u at h
  cases h with
  | zero s => exact .zero _
  | finite le => exact .finite le

theorem AtMost.mul {x y : Float} {i j k : Int} (hx : AtMost i x.toModel.unpack)
    (hy : AtMost j y.toModel.unpack) (le : i + j + 213 ≤ k) (least : -968 ≤ k) (range : k ≤ 971) :
    AtMost k (x * y).toModel.unpack := by
  refine AtMost.unpack_pack ?_ (by omega) range
  generalize ux : x.toModel.unpack = u at hx
  generalize uy : y.toModel.unpack = v at hy
  cases hx with
  | zero s => cases hy <;> exact .zero _
  | @finite s m e posX leX =>
    cases hy with
    | zero t => exact .zero _
    | @finite t n f posY leY =>
      have small : (m * n).log2 < 106 := by
        have left := (Nat.log2_lt (Nat.ne_of_gt posX)).1 (log2_lt_of_unpack ux)
        have right := (Nat.log2_lt (Nat.ne_of_gt posY)).1 (log2_lt_of_unpack uy)
        refine (Nat.log2_lt (Nat.ne_of_gt (Nat.mul_pos posX posY))).2 ?_
        calc m * n < 2 ^ 53 * 2 ^ 53 := Nat.mul_lt_mul'' left right
          _ = 2 ^ 106 := rfl
      exact atMost_mul_finite (b := 106) small (by omega) (by omega)

theorem atMost_toFloat (n : UInt64) : AtMost 235 n.toFloat.toModel.unpack := by
  refine AtMost.unpack_pack ?_ (by decide) (by decide)
  show AtMost 235 (UnpackedFloat.normalize _ _ _ _)
  have small := n.toNat_lt
  have size : UInt64.size = 18446744073709551616 := rfl
  unfold UnpackedFloat.normalize
  split
  · exact atMost_round (by omega)
  · exact .zero _
  · exact atMost_round (by omega)

theorem atMost_ofNat {n : Nat} (small : n < UInt64.size) : AtMost 396 (Float.ofNat n).toModel.unpack := by
  show AtMost 396 (Float.ofScientific n false 0).toModel.unpack
  unfold Float.ofScientific
  split
  · -- A number that is a double as it stands is multiplied by the power 1.
    have one : AtMost (-52) Float.exactlyRepresentablePowersOfTen[0].toModel.unpack :=
      .finite (Int.le_refl (-52))
    exact (atMost_toFloat _).mul one (by decide) (by decide) (by decide)
  · exact (atMost_ofScientific small).unpack_pack (by decide) (by decide)

/-- The double of a whole number that fits 64 bits is finite. -/
theorem isFinite_ofInt {n : Int} (fits : Fits n) : (Float.ofInt n).isFinite = true := by
  obtain ⟨least, most⟩ := fits
  cases n with
  | ofNat n =>
    exact (atMost_ofNat (Int.ofNat_lt.1 most)).isFinite
  | negSucc n =>
    have small : n + 1 < UInt64.size := by
      show n + 1 < 18446744073709551616
      omega
    exact ((atMost_ofNat small).neg (by decide) (by decide)).isFinite

end Stacklet.Json
