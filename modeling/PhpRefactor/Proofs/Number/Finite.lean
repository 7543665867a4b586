import PhpRefactor.Number.Decimal
import Mathlib.Tactic.Ring

/-!
# Numbers that stay finite

Rounding a fraction to a double overflows only if the fraction is large.  A fraction of at most
`2 ^ k` rounds to a finite double of at most `2 ^ (k + 3)` (`Double.atMost_ofRatio`), and one of at
least `2 ^ j` is not rounded below it (`Double.le_magnitude_ofRatio`).  The first is not sharp, but
both are enough to follow a number through the quick rule of the document format: its leading digits
fit into 64 bits, and every power of ten that it is divided by takes off more than rounding adds.
So what the rule does not refuse is finite (`Decimal.isFinite_of_scaled?`).

Both come from what the logarithm that rounding starts with says of a fraction, from above
(`Double.mul_lt_of_shiftedLog2`) and from below (`Double.le_mul_of_shiftedLog2`).
-/

set_option autoImplicit false

namespace PhpRefactor

namespace Double

/-! ## Fields -/

theorem fractionField_lt (d : Double) : d.fractionField < 2 ^ 52 :=
  Nat.mod_lt _ (by decide)

theorem significand_lt (d : Double) : d.significand < 2 ^ 53 := by
  have := d.fractionField_lt
  have hpow : Nat.pow 2 52 = 2 ^ 52 := rfl
  rw [significand]
  split <;> omega

theorem exponentField_ofNat {whole : Nat} (h : whole < 2047 * 2 ^ 52) :
    (⟨UInt64.ofNat whole⟩ : Double).exponentField = whole / 2 ^ 52 := by
  have hsize : UInt64.size = 2 ^ 64 := rfl
  have hbits : (UInt64.ofNat whole).toNat = whole := UInt64.toNat_ofNat_of_lt' (by omega)
  have hpow : Nat.pow 2 52 = 2 ^ 52 := rfl
  have hpow' : Nat.pow 2 11 = 2048 := rfl
  rw [exponentField, hbits, hpow, hpow']
  omega

theorem isFinite_withSign {d : Double} (negative : Bool) (h : d.isFinite) :
    (withSign negative d).isFinite := by
  have hexponent : d.exponentField < 2047 := by simpa [isFinite] using h
  have hfraction := d.fractionField_lt
  have hsize : UInt64.size = 2 ^ 64 := rfl
  have hbits : (withSign negative d).bits.toNat =
      (if negative then 2 ^ 63 else 0) + d.exponentField * 2 ^ 52 + d.fractionField := by
    refine UInt64.toNat_ofNat_of_lt' ?_
    simp only [Nat.pow_eq]
    cases negative <;> simp only [if_true, if_false, Bool.false_eq_true] <;> omega
  have hfield : (withSign negative d).exponentField = d.exponentField := by
    have hpow : Nat.pow 2 52 = 2 ^ 52 := rfl
    have hpow' : Nat.pow 2 11 = 2048 := rfl
    rw [exponentField, hbits, hpow, hpow']
    cases negative <;> simp only [if_true, if_false, Bool.false_eq_true] <;> omega
  rw [isFinite, hfield]
  simpa using hexponent

theorem isFinite_of_isZero {d : Double} (h : d.isZero) : d.isFinite := by
  simp only [isZero, Bool.and_eq_true, beq_iff_eq] at h
  simp [isFinite, h.1]

/-! ## Size -/

/-- The number is finite, and its magnitude is at most `2 ^ k`. -/
def AtMost (k : Nat) (d : Double) : Prop :=
  d.isFinite ∧ d.magnitude.1 ≤ d.magnitude.2 * 2 ^ k

theorem magnitude_le {d : Double} {k : Nat} (h : d.exponentField ≤ 1022 + k) :
    d.magnitude.1 ≤ d.magnitude.2 * 2 ^ k := by
  have hsignificand := d.significand_lt
  have hscale : d.scale ≤ 1021 + k := by
    rw [scale]
    omega
  rw [magnitude]
  split
  · rename_i hlarge
    calc d.significand * 2 ^ (d.scale - 1074) ≤ 2 ^ 53 * 2 ^ (d.scale - 1074) :=
          Nat.mul_le_mul_right _ hsignificand.le
      _ = 2 ^ (53 + (d.scale - 1074)) := (Nat.pow_add _ _ _).symm
      _ ≤ 2 ^ k := Nat.pow_le_pow_right (by decide) (by omega)
      _ = 1 * 2 ^ k := (Nat.one_mul _).symm
  · calc d.significand ≤ 2 ^ 53 := hsignificand.le
      _ ≤ 2 ^ (1074 - d.scale + k) := Nat.pow_le_pow_right (by decide) (by omega)
      _ = 2 ^ (1074 - d.scale) * 2 ^ k := Nat.pow_add _ _ _

theorem le_magnitude {d : Double} {j : Nat} (h : 1023 + j ≤ d.exponentField) :
    d.magnitude.2 * 2 ^ j ≤ d.magnitude.1 := by
  have hsignificand : 2 ^ 52 ≤ d.significand := by
    rw [significand, if_neg (by omega)]
    exact Nat.le_add_right _ _
  have hscale : 1022 + j ≤ d.scale := by
    rw [scale]
    omega
  rw [magnitude]
  split
  · calc 1 * 2 ^ j = 2 ^ j := Nat.one_mul _
      _ ≤ 2 ^ (52 + (d.scale - 1074)) := Nat.pow_le_pow_right (by decide) (by omega)
      _ = 2 ^ 52 * 2 ^ (d.scale - 1074) := Nat.pow_add _ _ _
      _ ≤ d.significand * 2 ^ (d.scale - 1074) := Nat.mul_le_mul_right _ hsignificand
  · calc 2 ^ (1074 - d.scale) * 2 ^ j = 2 ^ (1074 - d.scale + j) := (Nat.pow_add _ _ _).symm
      _ ≤ 2 ^ 52 := Nat.pow_le_pow_right (by decide) (by omega)
      _ ≤ d.significand := hsignificand

theorem divNearestEven_le {num den bound : Nat} (h : num < den * bound) :
    divNearestEven num den ≤ bound := by
  have hquotient : num / den < bound := Nat.div_lt_of_lt_mul h
  rw [divNearestEven]
  split
  · omega
  · split
    · omega
    · split <;> omega

theorem le_divNearestEven {num den bound : Nat} (hden : 0 < den) (h : den * bound ≤ num) :
    bound ≤ divNearestEven num den := by
  have hquotient : bound ≤ num / den :=
    (Nat.le_div_iff_mul_le hden).mpr ((Nat.mul_comm _ _).trans_le h)
  rw [divNearestEven]
  split
  · omega
  · split
    · omega
    · split <;> omega

/-- The logarithms of a numerator and a denominator, and one more, hold the fraction. -/
theorem mul_lt_of_log2 (num : Nat) {den : Nat} (hden : 0 < den) (shift : Nat) :
    num * 2 ^ shift < den * 2 ^ (num.log2 + shift - den.log2 + 1) := by
  have hnum : num < 2 ^ (num.log2 + 1) := Nat.lt_log2_self
  have hlog : 2 ^ den.log2 ≤ den := Nat.log2_self_le (by omega)
  calc num * 2 ^ shift < 2 ^ (num.log2 + 1) * 2 ^ shift :=
        Nat.mul_lt_mul_of_pos_right hnum (Nat.two_pow_pos shift)
    _ = 2 ^ (num.log2 + 1 + shift) := (Nat.pow_add _ _ _).symm
    _ ≤ 2 ^ (den.log2 + (num.log2 + shift - den.log2 + 1)) :=
        Nat.pow_le_pow_right (by decide) (by omega)
    _ = 2 ^ den.log2 * 2 ^ (num.log2 + shift - den.log2 + 1) := Nat.pow_add _ _ _
    _ ≤ den * 2 ^ (num.log2 + shift - den.log2 + 1) := Nat.mul_le_mul_right _ hlog

/-- The logarithm is large enough to hold the fraction. -/
theorem mul_lt_of_shiftedLog2 (num : Nat) {den : Nat} (hden : 0 < den) :
    num * 2 ^ 1074 < den * 2 ^ (shiftedLog2 num den + 1) := by
  have hbelow : ∀ below, num * 2 ^ 1074 < den * 2 ^ (below + 1) →
      num * 2 ^ 1074 < den * 2 ^ (max below 52 + 1) := fun below h =>
    h.trans_le (Nat.mul_le_mul_left _
      (Nat.pow_le_pow_right (by decide) (Nat.succ_le_succ (le_max_left below 52))))
  rw [shiftedLog2]
  refine hbelow _ ?_
  split
  · exact mul_lt_of_log2 num hden 1074
  · rename_i hless
    have hless : num * 2 ^ 1074 < den * 2 ^ (num.log2 + 1074 - den.log2) := Nat.lt_of_not_le hless
    exact hless.trans_le (Nat.mul_le_mul_left _ (Nat.pow_le_pow_right (by decide) (by omega)))

/-- Unless it was cut off, the logarithm is no larger than that. -/
theorem le_mul_of_shiftedLog2 {num den : Nat} (hnum : 0 < num) (h : 52 < shiftedLog2 num den) :
    den * 2 ^ shiftedLog2 num den ≤ num * 2 ^ 1074 := by
  have hguess : ∀ below, den * 2 ^ below ≤ num * 2 ^ 1074 → 52 < max below 52 →
      den * 2 ^ max below 52 ≤ num * 2 ^ 1074 := by
    intro below hle hlt
    rwa [max_eq_left (by omega)]
  rw [shiftedLog2] at h ⊢
  refine hguess _ ?_ h
  split
  · assumption
  · rename_i hless
    rw [if_neg hless] at h
    have hden : den < 2 ^ (den.log2 + 1) := Nat.lt_log2_self
    have hlow : 2 ^ num.log2 ≤ num := Nat.log2_self_le (by omega)
    calc den * 2 ^ (num.log2 + 1074 - den.log2 - 1)
        ≤ 2 ^ (den.log2 + 1) * 2 ^ (num.log2 + 1074 - den.log2 - 1) :=
          Nat.mul_le_mul_right _ hden.le
      _ = 2 ^ (num.log2 + 1074) := by
          rw [← Nat.pow_add]
          congr 1
          omega
      _ = 2 ^ num.log2 * 2 ^ 1074 := Nat.pow_add _ _ _
      _ ≤ num * 2 ^ 1074 := Nat.mul_le_mul_right _ hlow

theorem shiftedLog2_le {num den k : Nat} (hnum : 0 < num) (hden : 0 < den)
    (h : num ≤ den * 2 ^ k) : shiftedLog2 num den ≤ 1074 + k := by
  by_cases hlow : 52 < shiftedLog2 num den
  · have hlog : den * 2 ^ shiftedLog2 num den ≤ den * 2 ^ (k + 1074) := by
      rw [Nat.pow_add, ← Nat.mul_assoc]
      exact (le_mul_of_shiftedLog2 hnum hlow).trans (Nat.mul_le_mul_right _ h)
    have := (Nat.pow_le_pow_iff_right (a := 2) (by decide)).mp (Nat.le_of_mul_le_mul_left hlog hden)
    omega
  · omega

theorem le_shiftedLog2 {num den j : Nat} (hden : 0 < den) (h : den * 2 ^ j ≤ num) :
    1074 + j ≤ shiftedLog2 num den := by
  have hlog : den * 2 ^ (j + 1074) < den * 2 ^ (shiftedLog2 num den + 1) := by
    rw [Nat.pow_add, ← Nat.mul_assoc]
    exact (Nat.mul_le_mul_right _ h).trans_lt (mul_lt_of_shiftedLog2 num hden)
  have := (Nat.pow_lt_pow_iff_right (a := 2) (by decide)).mp (Nat.lt_of_mul_lt_mul_left hlog)
  omega

/-- A fraction of at most `2 ^ k` rounds to a finite number. -/
theorem atMost_ofRatio {num den k : Nat} (h : num ≤ den * 2 ^ k) (hk : k ≤ 1000) :
    (ofRatio num den).AtMost (k + 3) := by
  rw [ofRatio]
  split
  · exact ⟨by decide, Nat.zero_le _⟩
  rename_i hpos
  simp only [Bool.or_eq_true, decide_eq_true_eq, not_or] at hpos
  have hlog := shiftedLog2_le (Nat.pos_of_ne_zero hpos.1) (Nat.pos_of_ne_zero hpos.2) h
  have hlow : 52 ≤ shiftedLog2 num den := le_max_right _ _
  have hrounded :
      divNearestEven (num * 2 ^ 1074) (den * 2 ^ (shiftedLog2 num den - 52)) ≤ 2 ^ 53 := by
    refine divNearestEven_le ((mul_lt_of_shiftedLog2 num (Nat.pos_of_ne_zero hpos.2)).trans_eq ?_)
    rw [Nat.mul_assoc, ← Nat.pow_add]
    congr 2
    omega
  simp only [Nat.pow_eq, -Nat.reducePow]
  -- From here on only the sizes of the rounded significand and of the logarithm matter.
  generalize divNearestEven (num * 2 ^ 1074) (den * 2 ^ (shiftedLog2 num den - 52)) = m at *
  generalize shiftedLog2 num den = log at *
  have hwhole : (if m < 2 ^ 52 then m else (log - 52 + 1) * 2 ^ 52 + (m - 2 ^ 52)) ≤
      (1025 + k) * 2 ^ 52 := by
    split <;> omega
  generalize (if m < 2 ^ 52 then m else (log - 52 + 1) * 2 ^ 52 + (m - 2 ^ 52)) = whole at *
  have hlt : whole < 2047 * 2 ^ 52 := by omega
  have hfield := exponentField_ofNat hlt
  rw [if_neg (by omega)]
  refine ⟨?_, magnitude_le ?_⟩
  · rw [isFinite, hfield, decide_eq_true_eq]
    omega
  · rw [hfield]
    omega

/-- A fraction of at least `2 ^ j` is not rounded below it. -/
theorem le_magnitude_ofRatio {num den j : Nat} (hden : 0 < den) (h : den * 2 ^ j ≤ num)
    (hj : j ≤ 1000) : (ofRatio num den).magnitude.2 * 2 ^ j ≤ (ofRatio num den).magnitude.1 := by
  have hnum : 0 < num := (Nat.mul_pos hden (Nat.two_pow_pos j)).trans_le h
  have hlog := le_shiftedLog2 hden h
  have hrounded :
      2 ^ 52 ≤ divNearestEven (num * 2 ^ 1074) (den * 2 ^ (shiftedLog2 num den - 52)) := by
    refine le_divNearestEven (Nat.mul_pos hden (Nat.two_pow_pos _)) ?_
    rw [Nat.mul_assoc, ← Nat.pow_add, Nat.sub_add_cancel (by omega)]
    exact le_mul_of_shiftedLog2 hnum (by omega)
  refine le_magnitude ?_
  rw [ofRatio, if_neg (by simp; omega)]
  simp only [Nat.pow_eq, -Nat.reducePow]
  generalize divNearestEven (num * 2 ^ 1074) (den * 2 ^ (shiftedLog2 num den - 52)) = m at *
  generalize shiftedLog2 num den = log at *
  rw [if_neg (Nat.not_lt.mpr hrounded)]
  split
  · have hinfinity : infinity.exponentField = 2047 := by decide
    omega
  · rw [exponentField_ofNat (by omega)]
    omega

theorem atMost_ofNat {n : Nat} (h : n < 2 ^ 64) : (ofNat n).AtMost 67 :=
  atMost_ofRatio (k := 64) (by omega) (by decide)

theorem le_magnitude_ofNat {n j : Nat} (h : 2 ^ j ≤ n) (hj : j ≤ 1000) :
    (ofNat n).magnitude.2 * 2 ^ j ≤ (ofNat n).magnitude.1 :=
  le_magnitude_ofRatio (by decide) (by rwa [Nat.one_mul]) hj

/-- A quotient by a number of at least `2 ^ j`. -/
theorem atMost_divMagnitude {a b : Double} {j k : Nat} (ha : a.AtMost (j + k))
    (hb : b.magnitude.2 * 2 ^ j ≤ b.magnitude.1) (hk : k ≤ 1000) :
    (a.divMagnitude b).AtMost (k + 3) := by
  refine atMost_ofRatio ?_ hk
  calc a.magnitude.1 * b.magnitude.2 ≤ a.magnitude.2 * 2 ^ (j + k) * b.magnitude.2 :=
        Nat.mul_le_mul_right _ ha.2
    _ = a.magnitude.2 * 2 ^ k * (b.magnitude.2 * 2 ^ j) := by
        rw [Nat.pow_add]
        ring
    _ ≤ a.magnitude.2 * 2 ^ k * b.magnitude.1 := Nat.mul_le_mul_left _ hb
    _ = a.magnitude.2 * b.magnitude.1 * 2 ^ k := by ring

end Double

/-! ## The quick rule -/

namespace Decimal

open Double (AtMost atMost_divMagnitude atMost_ofNat isFinite_of_isZero isFinite_withSign
  le_magnitude_ofNat)

theorem absorb_lt {significand : Nat} (h : significand < 2 ^ 64) (digits : List Nat) :
    (absorb significand digits).1 < 2 ^ 64 := by
  induction digits generalizing significand with
  | nil => exact h
  | cons d digits ih =>
    rw [absorb]
    split
    · exact ih ‹_›
    · exact h

/-- Division by powers of ten stays finite: rounding adds three bits at most, and a division that is
not the last takes off as many. -/
theorem isFinite_divideDown {value : Double} {k : Nat} (h : value.AtMost (k + 3)) (hk : k ≤ 900)
    (power : Nat) : (divideDown value power).isFinite := by
  induction power using Nat.strong_induction_on generalizing value with
  | _ power ih =>
    rw [divideDown]
    split
    · have hone : 2 ^ 0 ≤ Nat.pow 10 power := Nat.pow_pos (by decide)
      exact (atMost_divMagnitude (j := 0) (k := k + 3) (by rwa [Nat.zero_add])
        (le_magnitude_ofNat hone (by decide)) (by omega)).1
    · split
      · exact isFinite_of_isZero ‹_›
      · have height : ∀ p, 1 ≤ p → 2 ^ 3 ≤ Nat.pow 10 p := fun p hp =>
          Nat.le_trans (by decide) (Nat.pow_le_pow_right (by decide) hp : 10 ^ 1 ≤ 10 ^ p)
        exact ih (power - 308) (by omega) (atMost_divMagnitude (by rwa [Nat.add_comm 3 k])
          (le_magnitude_ofNat (height 308 (by decide)) (by decide)) (by omega))

theorem isFinite_of_scale? {significand : Nat} {power : Int} {d : Double}
    (hsignificand : significand < 2 ^ 64) (h : scale? significand power = some d) :
    d.isFinite := by
  have hvalue := atMost_ofNat hsignificand
  unfold scale? at h
  dsimp only at h
  split at h
  · rw [← Option.some.inj h]
    exact isFinite_divideDown (k := 64) hvalue (by decide) _
  · split at h
    · rw [← Option.some.inj h]
      exact hvalue.1
    · split at h
      · exact absurd h (by simp)
      · split at h
        · rw [← Option.some.inj h]
          assumption
        · exact absurd h (by simp)

/-- What the quick rule does not refuse is finite. -/
theorem isFinite_of_scaled? {decimal : Decimal} {d : Double} (h : decimal.scaled? = some d) :
    d.isFinite := by
  unfold scaled? at h
  obtain ⟨scaled, hscaled, rfl⟩ := Option.map_eq_some_iff.mp h
  exact isFinite_withSign _
    (isFinite_of_scale? (absorb_lt (absorb_lt (by decide) _) _) hscaled)

end Decimal

end PhpRefactor
