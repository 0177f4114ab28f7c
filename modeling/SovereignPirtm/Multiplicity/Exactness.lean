import SovereignPirtm.Multiplicity.Power

/-!
# When the functor is exact

The results of `compute_multiplicity` on the exponents that it accepts, and the exponents for which
they are the power that was asked for.
-/

namespace SovereignPirtm.Multiplicity
open Library

/-! ## Signed numbers -/

theorem toInt_toInt64 (x : UInt64) :
    x.toInt64.toInt = if x.toNat < 2 ^ 63 then (x.toNat : Int) else x.toNat - 2 ^ 64 := by
  have wrapped : x.toInt64.toInt = x.toBitVec.toInt := rfl
  rw [wrapped, BitVec.toInt_eq_toNat_cond]
  have same : x.toBitVec.toNat = x.toNat := rfl
  rw [same]
  split <;> split <;> omega

theorem toNat_toUInt64 {x : Int64} (nonneg : 0 ≤ x) : x.toUInt64.toNat = x.toNatClampNeg :=
  Int64.toNat_toUInt64_of_le nonneg

theorem zero_le_of_one_le {x : Int64} (positive : 1 ≤ x) : 0 ≤ x :=
  Int64.le_trans (show (0 : Int64) ≤ 1 by decide) positive

theorem one_le_of_two_le {x : Int64} (large : 2 ≤ x) : 1 ≤ x :=
  Int64.le_trans (show (1 : Int64) ≤ 2 by decide) large

theorem toNatClampNeg_mono {x y : Int64} (le : x ≤ y) : x.toNatClampNeg ≤ y.toNatClampNeg :=
  Int.toNat_le_toNat (Int64.le_iff_toInt_le.mp le)

theorem le_of_toNatClampNeg_le {x y : Int64} (positive : 0 < x.toNatClampNeg)
    (le : x.toNatClampNeg ≤ y.toNatClampNeg) : x ≤ y := by
  rw [Int64.toNatClampNeg] at positive le
  rw [Int64.toNatClampNeg] at le
  exact Int64.le_iff_toInt_le.mpr (by omega)

theorem Rational.new_one (x : Int64) : (Rational.new x 1).value = ⟨x, 1⟩ := by
  have divisor : Multiplicity.gcd x.abs 1 = 1 := by
    rw [gcd, show (1 : Int64).toInt.natAbs = 1 from rfl, Nat.gcd_one_right]
    rfl
  simp [Rational.new, Rational.reduce, absolute, divisor]

@[simp] theorem failed_error (error : MultiplicityError) (prime : UInt64) (exponent : Rational) :
    (failed error prime exponent).value.error = error := rfl

@[simp] theorem succeeded_error (value : Traced Hazard Rational) :
    (succeeded value).value.error = .none := rfl

@[simp] theorem succeeded_value (value : Traced Hazard Rational) :
    (succeeded value).value.value = value.value := rfl

/-! ## The result on an exponent that is accepted -/

section Accepted
variable {p : UInt64} {q : Rational} (valid : 2 ≤ p) (nonneg : 0 ≤ q.numer) (proper : 1 ≤ q.denom)
include valid nonneg proper

theorem computeMultiplicity_valid : computeMultiplicity p q =
    if q.numer = 0 then succeeded (Rational.new 1 1)
    else match fits (p.toNat ^ q.numer.toNatClampNeg) with
      | none => failed .overflow p q
      | some pa =>
          let root := integerNthRoot pa q.denom.toUInt64
          if q.denom = 1 then succeeded (narrow pa >>= (Rational.new · 1))
          else if root.toNat ^ q.denom.toNatClampNeg = pa.toNat then
            succeeded (narrow root >>= (Rational.new · 1))
          else succeeded (narrow pa >>= fun numer =>
              Rational.new numer q.denom >>= Rational.reduce) := by
  have prime : isValidPrime p = true := decide_eq_true valid
  have valid' : 2 ≤ p.toNat := UInt64.le_iff_toNat_le.mp valid
  have not_one : p ≠ 1 := by
    rintro rfl
    exact absurd valid' (by decide)
  have nonzero : q.denom ≠ 0 := by
    intro zero
    rw [zero] at proper
    exact absurd proper (by decide)
  have denom_nonneg := zero_le_of_one_le proper
  have power : powChecked p q.numer.toUInt64 = fits (p.toNat ^ q.numer.toNatClampNeg) := by
    rw [powChecked_eq, toNat_toUInt64 nonneg]
  rw [computeMultiplicity, prime, if_neg (by decide), if_neg nonzero,
    if_neg (Int64.not_lt.mpr nonneg), if_neg not_one, power]
  cases fits (p.toNat ^ q.numer.toNatClampNeg) with
  | none => simp only [ite_self]
  | some pa =>
      have root (r : UInt64) : powChecked r q.denom.toUInt64 = some pa ↔
          r.toNat ^ q.denom.toNatClampNeg = pa.toNat := by
        rw [powChecked_eq, fits_eq_some_iff, toNat_toUInt64 denom_nonneg, eq_comm]
      simp only [root]

theorem computeMultiplicity_error : (computeMultiplicity p q).value.error =
    if p.toNat ^ q.numer.toNatClampNeg < 2 ^ 64 then .none else .overflow := by
  rw [computeMultiplicity_valid valid nonneg proper]
  split
  · rename_i zero
    rw [zero, succeeded_error]
    simp
  · cases power : fits (p.toNat ^ q.numer.toNatClampNeg) with
    | none => rw [if_neg (not_lt.mpr (fits_eq_none_iff.mp power)), failed_error]
    | some pa =>
        have small : p.toNat ^ q.numer.toNatClampNeg < 2 ^ 64 := by
          rw [← fits_eq_some_iff.mp power]
          exact pa.toNat_lt
        rw [if_pos small]
        dsimp only
        split_ifs <;> rfl

theorem error_eq_none_iff : (computeMultiplicity p q).value.error = .none ↔
    p.toNat ^ q.numer.toNatClampNeg < 2 ^ 64 := by
  rw [computeMultiplicity_error valid nonneg proper]
  split <;> simp_all

theorem error_eq_overflow_iff : (computeMultiplicity p q).value.error = .overflow ↔
    2 ^ 64 ≤ p.toNat ^ q.numer.toNatClampNeg := by
  rw [computeMultiplicity_error valid nonneg proper]
  split <;> simp_all

omit proper in
theorem computeMultiplicity_whole (whole : q.denom = 1) {power : UInt64}
    (is_power : power.toNat = p.toNat ^ q.numer.toNatClampNeg) :
    (computeMultiplicity p q).value.value = ⟨power.toInt64, 1⟩ := by
  rw [computeMultiplicity_valid valid nonneg (by rw [whole]; decide), ← is_power, fits_toNat]
  split
  · rename_i zero
    have one : power = 1 := UInt64.toNat_inj.mp (by rw [is_power, zero]; rfl)
    rw [succeeded_value, Rational.new_one, one]
    rfl
  · simp only [succeeded_value, Traced.value_bind, narrow, Traced.value_note, Rational.new_one]

omit proper in
theorem computeMultiplicity_fraction (fractional : 2 ≤ q.denom) {root : UInt64}
    (small : p.toNat ^ q.numer.toNatClampNeg < 2 ^ 64)
    (is_root : root.toNat ^ q.denom.toNatClampNeg = p.toNat ^ q.numer.toNatClampNeg) :
    (computeMultiplicity p q).value.value = ⟨root.toInt64, 1⟩ := by
  have proper := one_le_of_two_le fractional
  have degree : q.denom.toUInt64.toNat = q.denom.toNatClampNeg :=
    toNat_toUInt64 (zero_le_of_one_le proper)
  have positive : q.denom.toNatClampNeg ≠ 0 :=
    Nat.ne_of_gt (toNatClampNeg_mono proper)
  have not_whole : q.denom ≠ 1 := by
    intro one
    rw [one] at fractional
    exact absurd fractional (by decide)
  rw [computeMultiplicity_valid valid nonneg proper]
  split
  · rename_i zero
    have one : root = 1 := by
      rw [zero, show (0 : Int64).toNatClampNeg = 0 from rfl, pow_zero,
        Nat.pow_eq_one] at is_root
      exact UInt64.toNat_inj.mp (is_root.resolve_right positive)
    rw [succeeded_value, Rational.new_one, one]
    rfl
  · cases power : fits (p.toNat ^ q.numer.toNatClampNeg) with
    | none => exact absurd (fits_eq_none_iff.mp power) (not_le.mpr small)
    | some pa =>
        have pa_eq := fits_eq_some_iff.mp power
        have found := integerNthRoot_spec pa (n := q.denom.toUInt64) (degree ▸ positive)
        have exact_root : IsFloorRoot q.denom.toUInt64.toNat pa.toNat root.toNat := by
          rw [degree, pa_eq, ← is_root]
          exact ⟨le_rfl, Nat.pow_lt_pow_left (Nat.lt_succ_self _) positive⟩
        have same : integerNthRoot pa q.denom.toUInt64 = root :=
          UInt64.toNat_inj.mp (found.unique exact_root)
        simp only [same, is_root, pa_eq, if_true, succeeded_value,
          Traced.value_bind, narrow, Traced.value_note, Rational.new_one]

end Accepted

/-! ## Exactness -/

def IsPower (x : Rational) (p a b : Nat) : Prop :=
  0 < x.numer.toInt ∧ 0 < x.denom.toInt ∧ x.numer.toInt ^ b = p ^ a * x.denom.toInt ^ b

instance (x : Rational) (p a b : Nat) : Decidable (IsPower x p a b) :=
  inferInstanceAs (Decidable (_ ∧ _ ∧ _))

theorem IsPower.exists_root {x : Rational} {p a b : Nat} (power : IsPower x p a b)
    (positive : b ≠ 0) : ∃ s, s ^ b = p ^ a := by
  obtain ⟨numer, denom, same⟩ := power
  obtain ⟨n, n_eq⟩ := Int.eq_ofNat_of_zero_le numer.le
  obtain ⟨d, d_eq⟩ := Int.eq_ofNat_of_zero_le denom.le
  rw [n_eq, d_eq] at same
  refine exists_pow_eq_of_mul_pow (x := n) (y := d) (by omega) positive ?_
  exact_mod_cast same

theorem isPower_root {root : UInt64} {p a b : Nat} (positive : 0 < p) (small : p ^ a < 2 ^ 64)
    (fractional : 2 ≤ b) (is_root : root.toNat ^ b = p ^ a) : IsPower ⟨root.toInt64, 1⟩ p a b := by
  have half : root.toNat < 2 ^ 32 := lt_of_pow_lt_square fractional (is_root ▸ small)
  have some_root : 0 < root.toNat := by
    have power := pow_pos positive a
    rw [← is_root] at power
    exact Nat.pos_of_ne_zero fun zero => by simp [zero, show b ≠ 0 by omega] at power
  have numer : root.toInt64.toInt = root.toNat := by
    rw [toInt_toInt64, if_pos (by omega)]
  refine ⟨?_, show 0 < (1 : Int64).toInt by decide, ?_⟩
  · rw [numer]
    exact_mod_cast some_root
  · rw [numer, show (1 : Int64).toInt = 1 from rfl, one_pow, mul_one]
    exact_mod_cast is_root

/-- A fractional exponent gives the exact power, or an error, when the power of its numerator is out
of range or is the power of an integer with its denominator. -/
theorem fraction_exact_iff (p : UInt64) (q : Rational) (valid : 2 ≤ p) (positive : 1 ≤ q.numer)
    (fractional : 2 ≤ q.denom) :
    ((computeMultiplicity p q).value.error = .none →
      IsPower (computeMultiplicity p q).value.value p.toNat q.numer.toNatClampNeg
        q.denom.toNatClampNeg) ↔
      2 ^ 64 ≤ p.toNat ^ q.numer.toNatClampNeg ∨
        ∃ s, s ^ q.denom.toNatClampNeg = p.toNat ^ q.numer.toNatClampNeg := by
  have valid' : 2 ≤ p.toNat := UInt64.le_iff_toNat_le.mp valid
  have nonneg := zero_le_of_one_le positive
  have proper := one_le_of_two_le fractional
  have degree : 2 ≤ q.denom.toNatClampNeg := toNatClampNeg_mono fractional
  rw [error_eq_none_iff valid nonneg proper]
  constructor
  · intro exact_power
    rcases lt_or_ge (p.toNat ^ q.numer.toNatClampNeg) (2 ^ 64) with small | large
    · exact .inr ((exact_power small).exists_root (by omega))
    · exact .inl large
  · rintro (large | ⟨s, is_root⟩) small
    · omega
    · have fits_root : s < 2 ^ 64 :=
        (Nat.le_self_pow (by omega) s).trans_lt (is_root ▸ small)
      have root : (UInt64.ofNat s).toNat ^ q.denom.toNatClampNeg =
          p.toNat ^ q.numer.toNatClampNeg := by
        rw [UInt64.toNat_ofNat_of_lt' fits_root, is_root]
      rw [computeMultiplicity_fraction valid nonneg fractional small root]
      exact isPower_root (by omega) small degree root

theorem root_of_four : IsPower (computeMultiplicity 4 ⟨1, 2⟩).value.value 4 1 2 := by
  have small : (computeMultiplicity 4 ⟨1, 2⟩).value.error = .none :=
    (error_eq_none_iff (by decide) (by decide) (by decide)).mpr (by decide)
  exact (fraction_exact_iff 4 ⟨1, 2⟩ (by decide) (by decide) (by decide)).mpr
    (.inr ⟨2, by decide⟩) small

theorem root_of_two_inexact :
    let r := (computeMultiplicity 2 (Rational.new 1 2).value).value
    r.error = .none ∧ r.value = ⟨1, 1⟩ ∧ ¬ IsPower r.value 2 1 2 := by decide +kernel

/-- A whole exponent gives the exact power, or an error, unless the power lies in the upper half of
the unsigned range. -/
theorem whole_exact_iff (p : UInt64) (n : Int64) (valid : 2 ≤ p) (nonneg : 0 ≤ n) :
    ((computeMultiplicity p (Rational.new n 1).value).value.error = .none →
      (computeMultiplicity p (Rational.new n 1).value).value.value.denom = 1 ∧
      (computeMultiplicity p (Rational.new n 1).value).value.value.numer.toInt =
        p.toNat ^ n.toNatClampNeg) ↔
      p.toNat ^ n.toNatClampNeg < 2 ^ 63 ∨ 2 ^ 64 ≤ p.toNat ^ n.toNatClampNeg := by
  simp only [Rational.new_one]
  have error := error_eq_none_iff (q := ⟨n, 1⟩) valid nonneg (show (1 : Int64) ≤ 1 by decide)
  rw [error]
  rcases lt_or_ge (p.toNat ^ n.toNatClampNeg) (2 ^ 64) with small | large
  · have power : (UInt64.ofNat (p.toNat ^ n.toNatClampNeg)).toNat = p.toNat ^ n.toNatClampNeg :=
      UInt64.toNat_ofNat_of_lt' small
    rw [computeMultiplicity_whole (q := ⟨n, 1⟩) valid nonneg rfl power, toInt_toInt64, power]
    constructor
    · intro exact_power
      have numer := (exact_power small).2
      rcases lt_or_ge (p.toNat ^ n.toNatClampNeg) (2 ^ 63) with low | high
      · exact .inl low
      · rw [if_neg (not_lt.mpr high), ← Nat.cast_pow] at numer
        omega
    · rintro (low | high) -
      · exact ⟨rfl, by rw [if_pos low, Nat.cast_pow]⟩
      · omega
  · exact ⟨fun _ => .inr large, fun _ small => absurd small (not_lt.mpr large)⟩

theorem whole_five_of_three :
    (computeMultiplicity 3 (Rational.new 5 1).value).value.value.numer.toInt =
      (3 : UInt64).toNat ^ 5 :=
  ((whole_exact_iff 3 5 (by decide) (by decide)).mpr (.inl (by decide)) (by decide +kernel)).2

theorem whole_forty_of_three_inexact :
    let r := (computeMultiplicity 3 (Rational.new 40 1).value).value
    r.error = .none ∧ r.value.numer.toInt ≠ 3 ^ 40 := by decide +kernel

/-! ## Overflow -/

/-- An overflow is reported only for results out of range when the power of the numerator is in range
itself, or when it is so large that even its root is not. -/
theorem overflow_sound_iff (p : UInt64) (q : Rational) (valid : 2 ≤ p) (nonneg : 0 ≤ q.numer)
    (proper : 1 ≤ q.denom) :
    ((computeMultiplicity p q).value.error = .overflow →
      (2 ^ 64 - 1) ^ q.denom.toNatClampNeg < p.toNat ^ q.numer.toNatClampNeg) ↔
      p.toNat ^ q.numer.toNatClampNeg < 2 ^ 64 ∨
        (2 ^ 64 - 1) ^ q.denom.toNatClampNeg < p.toNat ^ q.numer.toNatClampNeg := by
  rw [error_eq_overflow_iff valid nonneg proper]
  constructor
  · intro sound
    rcases lt_or_ge (p.toNat ^ q.numer.toNatClampNeg) (2 ^ 64) with small | large
    · exact .inl small
    · exact .inr (sound large)
  · rintro (small | beyond) large
    · omega
    · exact beyond

theorem overflow_of_two :
    (2 ^ 64 - 1) ^ (1 : Int64).toNatClampNeg < (2 : UInt64).toNat ^ (64 : Int64).toNatClampNeg :=
  (overflow_sound_iff 2 ⟨64, 1⟩ (by decide) (by decide) (by decide)).mpr (.inr (by decide))
    (by decide +kernel)

theorem overflow_of_small_root :
    (computeMultiplicity 2 (Rational.new 65 2).value).value.error = .overflow ∧
      ¬ (2 ^ 64 - 1) ^ 2 < 2 ^ 65 := by decide +kernel

end SovereignPirtm.Multiplicity
