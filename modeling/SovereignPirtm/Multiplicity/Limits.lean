import SovereignPirtm.Multiplicity.Canonical
import SovereignPirtm.Multiplicity.Exactness

/-!
# Perfect powers and the largest prime

The powers whose roots are found, and `max_prime_for_exponent` over the real numbers.
-/

namespace SovereignPirtm.Multiplicity
open Library

/-! ## Perfect powers -/

theorem toInt_ofNat_of_small {x : Nat} (small : x < 64) : (Int64.ofNat x).toInt = x :=
  Int64.toInt_ofNat_of_lt (by omega)

section Exponent
variable {a b : Nat} (positive : 0 < b) (small : a < 64) (small' : b < 64)
include positive small small'

theorem ordinary_of_small : Rational.Ordinary ⟨Int64.ofNat a, Int64.ofNat b⟩ := by
  have numer := toInt_ofNat_of_small small
  have denom := toInt_ofNat_of_small small'
  refine ⟨fun zero => ?_, fun least => ?_, fun least => ?_⟩
  · have none : (Int64.ofNat b).toInt = 0 := congrArg Int64.toInt zero
    omega
  · have none : (Int64.ofNat a).toInt = -2 ^ 63 := congrArg Int64.toInt least
    omega
  · have none : (Int64.ofNat b).toInt = -2 ^ 63 := congrArg Int64.toInt least
    omega

theorem new_of_coprime (coprime : Nat.Coprime a b) :
    let q := (Rational.new (Int64.ofNat a) (Int64.ofNat b)).value
    q.numer.toNatClampNeg = a ∧ q.denom.toNatClampNeg = b := by
  intro q
  obtain ⟨numer, denom⟩ := Rational.new_toNat (ordinary_of_small positive small small')
  have positive' : (0 : ℤ) < b := Int.natCast_pos.mpr positive
  rw [toInt_ofNat_of_small small, toInt_ofNat_of_small small', Rat.divInt_eq_div] at numer denom
  have num := Rat.num_div_eq_of_coprime (a := a) positive' coprime
  have den := Rat.den_div_eq_of_coprime (a := a) positive' coprime
  refine ⟨?_, ?_⟩
  · rw [numer, num, Int.toNat_natCast]
  · rw [denom]
    exact_mod_cast den

end Exponent

def MultiplicityResult.IsWhole (r : MultiplicityResult) (x : Nat) : Prop :=
  r.error = .none ∧ r.value.numer.toInt = x ∧ r.value.denom = 1

section Power
variable {q : Nat} {x : Rational} (base : 2 ≤ q) (positive : 1 ≤ x.numer.toNatClampNeg)
  (fractional : 2 ≤ x.denom.toNatClampNeg)
  (small : q ^ (x.numer.toNatClampNeg * x.denom.toNatClampNeg) < 2 ^ 64)
include base positive fractional small

theorem computeMultiplicity_perfect_power :
    (computeMultiplicity (UInt64.ofNat (q ^ x.denom.toNatClampNeg)) x).value.IsWhole
      (q ^ x.numer.toNatClampNeg) := by
  have fractional' : 2 ≤ x.denom := le_of_toNatClampNeg_le (by decide) fractional
  have positive' : 1 ≤ x.numer := le_of_toNatClampNeg_le (by decide) positive
  have nonneg := zero_le_of_one_le positive'
  have proper := one_le_of_two_le fractional'
  set a := x.numer.toNatClampNeg
  set b := x.denom.toNatClampNeg
  have prime_small : q ^ b < 2 ^ 64 :=
    (Nat.pow_le_pow_right (by omega) (Nat.le_mul_of_pos_left b positive)).trans_lt small
  have root_power : (q ^ a) ^ b < 2 ^ 64 := by rwa [← pow_mul]
  have root_half : q ^ a < 2 ^ 32 := lt_of_pow_lt_square fractional root_power
  have prime : (UInt64.ofNat (q ^ b)).toNat = q ^ b := UInt64.toNat_ofNat_of_lt' prime_small
  have root : (UInt64.ofNat (q ^ a)).toNat = q ^ a :=
    UInt64.toNat_ofNat_of_lt' (root_half.trans (by decide))
  have valid : 2 ≤ UInt64.ofNat (q ^ b) := by
    rw [UInt64.le_iff_toNat_le, prime]
    exact base.trans (Nat.le_self_pow (by omega) q)
  have power : (UInt64.ofNat (q ^ b)).toNat ^ a = (q ^ a) ^ b := by
    rw [prime, ← pow_mul, ← pow_mul, mul_comm]
  have is_root : (UInt64.ofNat (q ^ a)).toNat ^ b = (UInt64.ofNat (q ^ b)).toNat ^ a := by
    rw [root, power]
  have value := computeMultiplicity_fraction valid nonneg fractional' (power ▸ root_power) is_root
  refine ⟨(error_eq_none_iff valid nonneg proper).mpr (power ▸ root_power), ?_, ?_⟩
  · rw [value, toInt_toInt64, root, if_pos (by omega)]
  · rw [value]

end Power

/-- The root of a perfect power is found, whenever it and the powers that lead to it are in range. -/
theorem perfect_power_recognised (q a b : Nat) (base : 2 ≤ q) (fractional : 2 ≤ b)
    (positive : 1 ≤ a) (coprime : Nat.Coprime a b) (small : q ^ (a * b) ≤ 2 ^ 64 - 1) :
    (computeMultiplicity (UInt64.ofNat (q ^ b))
      (Rational.new (Int64.ofNat a) (Int64.ofNat b)).value).value.IsWhole (q ^ a) := by
  have exponent : a * b < 64 := by
    have power : 2 ^ (a * b) < 2 ^ 64 :=
      (Nat.pow_le_pow_left base _).trans_lt (by omega)
    exact (Nat.pow_lt_pow_iff_right (by decide)).mp power
  have small_a : a < 64 := (Nat.le_mul_of_pos_right a (by omega)).trans_lt exponent
  have small_b : b < 64 := (Nat.le_mul_of_pos_left b positive).trans_lt exponent
  obtain ⟨numer, denom⟩ := new_of_coprime (by omega : 0 < b) small_a small_b coprime
  generalize (Rational.new (Int64.ofNat a) (Int64.ofNat b)).value = x at numer denom
  subst numer denom
  exact computeMultiplicity_perfect_power base positive fractional (by omega)

theorem perfect_power_of_eight :
    (computeMultiplicity 8 (Rational.new 2 3).value).value.IsWhole 4 :=
  perfect_power_recognised 2 2 3 (by decide) (by decide) (by decide) (by decide) (by decide)

/-! ## The largest prime -/

/-- The powers are those of the real numbers, where the source computes with `double`. -/
noncomputable def maxPrimeForExponent (exponent : Rational) : UInt64 :=
  if exponent.numer ≤ 0 ∨ exponent.denom ≤ 0 then 2
  else
    let maxVal : ℝ := (maxU64.toNat : ℝ) ^ ((exponent.denom.toInt : ℝ) / exponent.numer.toInt)
    if maxVal > maxU64.toNat ∨ maxVal < 0 then maxU64 else UInt64.ofNat ⌊maxVal⌋₊

theorem cast_toInt {x : Int64} (nonneg : 0 ≤ x) : (x.toInt : ℝ) = x.toNatClampNeg := by
  have same : (x.toNatClampNeg : ℤ) = x.toInt :=
    Int.toNat_of_nonneg (Int64.le_iff_toInt_le.mp nonneg)
  rw [← same, Int.cast_natCast]

section Proper
variable {q : Rational} (positive : 1 ≤ q.numer) (proper : 1 ≤ q.denom)
include positive proper

theorem le_maxPrimeForExponent_iff (p : UInt64) : p ≤ maxPrimeForExponent q ↔
    p.toNat ^ q.numer.toNatClampNeg ≤ (2 ^ 64 - 1) ^ q.denom.toNatClampNeg := by
  have numer : 1 ≤ q.numer.toInt := Int64.le_iff_toInt_le.mp positive
  have denom : 1 ≤ q.denom.toInt := Int64.le_iff_toInt_le.mp proper
  have numer_cast := cast_toInt (zero_le_of_one_le positive)
  have denom_cast := cast_toInt (zero_le_of_one_le proper)
  have nonzero : q.numer.toNatClampNeg ≠ 0 := Nat.ne_of_gt (toNatClampNeg_mono positive)
  have accepted : ¬ (q.numer ≤ 0 ∨ q.denom ≤ 0) := by
    simp only [Int64.le_iff_toInt_le, Int64.toInt_zero]
    omega
  have power : (p.toNat : ℝ) ≤ _ ↔ p.toNat ^ _ ≤ maxU64.toNat ^ _ :=
    natCast_le_rpow_div_iff p.toNat q.denom.toNatClampNeg nonzero
  have within : p.toNat ≤ maxU64.toNat := Nat.le_of_lt_succ p.toNat_lt
  have nonneg := Real.rpow_nonneg (Nat.cast_nonneg (α := ℝ) maxU64.toNat)
    ((q.denom.toNatClampNeg : ℝ) / q.numer.toNatClampNeg)
  rw [show 2 ^ 64 - 1 = maxU64.toNat from rfl, ← power, maxPrimeForExponent, if_neg accepted,
    numer_cast, denom_cast]
  dsimp only
  split
  · rename_i beyond
    -- Past the range every `p` is below the real bound, and the maximum is returned.
    have large := beyond.resolve_right (not_lt.mpr nonneg)
    have reached : (p.toNat : ℝ) ≤ maxU64.toNat := Nat.cast_le.mpr within
    exact iff_of_true (UInt64.le_iff_toNat_le.mpr within) (reached.trans large.le)
  · rename_i inside
    rw [not_or, gt_iff_lt, not_lt] at inside
    have floor_le := Nat.floor_le_of_le inside.1
    rw [UInt64.le_iff_toNat_le, UInt64.toNat_ofNat_of_lt' (Nat.lt_succ_of_le floor_le),
      Nat.le_floor_iff nonneg]

theorem maxPrimeForExponent_lt_iff (p : UInt64) : maxPrimeForExponent q < p ↔
    (2 ^ 64 - 1) ^ q.denom.toNatClampNeg < p.toNat ^ q.numer.toNatClampNeg := by
  rw [← UInt64.not_le, le_maxPrimeForExponent_iff positive proper, not_le]

end Proper

/-- The limit and the functor agree when the power of the numerator is in range itself, or when it is
so large that even its root is not. -/
theorem overflow_agrees_iff (p : UInt64) (q : Rational) (valid : 2 ≤ p) (positive : 1 ≤ q.numer)
    (proper : 1 ≤ q.denom) :
    ((computeMultiplicity p q).value.error = .overflow ↔ p > maxPrimeForExponent q) ↔
      p.toNat ^ q.numer.toNatClampNeg < 2 ^ 64 ∨
        (2 ^ 64 - 1) ^ q.denom.toNatClampNeg < p.toNat ^ q.numer.toNatClampNeg := by
  have nonneg := zero_le_of_one_le positive
  have degree : q.denom.toNatClampNeg ≠ 0 := Nat.ne_of_gt (toNatClampNeg_mono proper)
  have limit := Nat.le_self_pow degree (2 ^ 64 - 1)
  rw [error_eq_overflow_iff valid nonneg proper, gt_iff_lt,
    maxPrimeForExponent_lt_iff positive proper]
  generalize p.toNat ^ q.numer.toNatClampNeg = power
  generalize (2 ^ 64 - 1) ^ q.denom.toNatClampNeg = bound at limit
  constructor
  · intro agrees
    rcases lt_or_ge power (2 ^ 64) with small | large
    · exact .inl small
    · exact .inr (agrees.mp large)
  · rintro (small | beyond)
    · exact iff_of_false (not_le.mpr small) (by omega)
    · exact iff_of_true (by omega) beyond

theorem overflow_agrees_at_two :
    (computeMultiplicity 2 ⟨64, 1⟩).value.error = .overflow ↔ 2 > maxPrimeForExponent ⟨64, 1⟩ :=
  (overflow_agrees_iff 2 ⟨64, 1⟩ (by decide) (by decide) (by decide)).mpr (.inr (by decide))

theorem overflow_below_limit :
    (computeMultiplicity 2 (Rational.new 65 2).value).value.error = .overflow ∧
      ¬ 2 > maxPrimeForExponent (Rational.new 65 2).value := by
  have exponent : (Rational.new 65 2).value = ⟨65, 2⟩ := by decide +kernel
  rw [exponent, error_eq_overflow_iff (by decide) (by decide) (by decide), gt_iff_lt,
    maxPrimeForExponent_lt_iff (by decide) (by decide)]
  decide

end SovereignPirtm.Multiplicity
