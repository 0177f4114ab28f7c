import SovereignPirtm.Multiplicity.Limits

/-!
# Laws of exponents

Where the powers of a base are whole numbers, the functor takes sums of exponents to products and
products of exponents to powers of powers, or it reports an overflow.
-/

namespace SovereignPirtm.Multiplicity
open Library

/-! ## Real powers -/

section Proper
variable {q : Rational} (nonneg : 0 ≤ q.numer) (proper : 1 ≤ q.denom)
include nonneg proper

theorem cast_toRat : (q.toRat : ℝ) = (q.numer.toNatClampNeg : ℝ) / q.denom.toNatClampNeg := by
  rw [Rational.toRat, Rat.divInt_eq_div, Rat.cast_div, Rat.cast_intCast, Rat.cast_intCast,
    cast_toInt nonneg, cast_toInt (zero_le_of_one_le proper)]

theorem eq_rpow_toRat_iff (p x : ℕ) : (x : ℝ) = (p : ℝ) ^ (q.toRat : ℝ) ↔
    x ^ q.denom.toNatClampNeg = p ^ q.numer.toNatClampNeg := by
  rw [cast_toRat nonneg proper]
  exact natCast_eq_rpow_div_iff x _ (Nat.ne_of_gt (toNatClampNeg_mono proper))

end Proper

/-- The functor returns a whole number, and it is the power. -/
structure Exact (p : UInt64) (q : Rational) (x : ℕ) : Prop where
  whole : (computeMultiplicity p q).value.IsWhole x
  power : (x : ℝ) = (p.toNat : ℝ) ^ (q.toRat : ℝ)

theorem Exact.small {p : UInt64} {q : Rational} {x : ℕ} (exact : Exact p q x) : x < 2 ^ 63 := by
  have upper := (computeMultiplicity p q).value.value.numer.toInt_lt
  rw [exact.whole.2.1] at upper
  exact_mod_cast upper

/-! ## Whole powers -/

theorem exact_or_overflow {p : UInt64} {q : Rational} {x : ℕ} (valid : 2 ≤ p) (nonneg : 0 ≤ q.numer)
    (proper : 1 ≤ q.denom) (small : x < 2 ^ 63) (power : (x : ℝ) = (p.toNat : ℝ) ^ (q.toRat : ℝ)) :
    Exact p q x ∨ (computeMultiplicity p q).value.error = .overflow := by
  have root := (eq_rpow_toRat_iff nonneg proper p.toNat x).mp power
  have word : (UInt64.ofNat x).toNat = x := UInt64.toNat_ofNat_of_lt' (by simp [UInt64.size]; omega)
  have numer : (UInt64.ofNat x).toInt64.toInt = x := by
    rw [toInt_toInt64, word, if_pos small]
  rcases lt_or_ge (p.toNat ^ q.numer.toNatClampNeg) (2 ^ 64) with fits | large
  · have value : (computeMultiplicity p q).value.value = ⟨(UInt64.ofNat x).toInt64, 1⟩ := by
      by_cases whole : q.denom = 1
      · apply computeMultiplicity_whole valid nonneg whole
        rw [word, ← root, whole]
        exact (pow_one x).symm
      · have fractional : 2 ≤ q.denom := by
          rw [Int64.le_iff_toInt_le] at proper ⊢
          have other : q.denom.toInt ≠ (1 : Int64).toInt := fun same => whole (Int64.toInt_inj.mp same)
          change (1 : ℤ) ≤ _ at proper
          change _ ≠ (1 : ℤ) at other
          change (2 : ℤ) ≤ _
          omega
        exact computeMultiplicity_fraction valid nonneg fractional fits (word.symm ▸ root)
    refine .inl ⟨⟨(error_eq_none_iff valid nonneg proper).mpr fits, ?_, ?_⟩, power⟩
    · rw [value, numer]
    · rw [value]
  · exact .inr ((error_eq_overflow_iff valid nonneg proper).mpr large)

/-- The numerator one never overflows. -/
theorem exact_root {p : UInt64} {d : Int64} {x : ℕ} (valid : 2 ≤ p) (proper : 1 ≤ d)
    (small : x < 2 ^ 63) (root : x ^ d.toNatClampNeg = p.toNat) : Exact p ⟨1, d⟩ x := by
  have nonneg : (0 : Int64) ≤ 1 := by decide
  have power := (eq_rpow_toRat_iff (q := ⟨1, d⟩) nonneg proper p.toNat x).mpr
    (root.trans (pow_one _).symm)
  refine (exact_or_overflow valid nonneg proper small power).resolve_right ?_
  rw [error_eq_overflow_iff valid nonneg proper, not_le]
  exact (pow_one p.toNat).trans_lt p.toNat_lt

section Laws
variable {p : UInt64} {r s t : Rational} {x y : ℕ} (valid : 2 ≤ p) (nonneg : 0 ≤ t.numer)
  (proper : 1 ≤ t.denom)
include valid nonneg proper

theorem sum_of_exponents (sum : t.toRat = r.toRat + s.toRat) (first : Exact p r x)
    (second : Exact p s y) (small : x * y < 2 ^ 63) :
    Exact p t (x * y) ∨ (computeMultiplicity p t).value.error = .overflow := by
  have positive : (0 : ℝ) < p.toNat := by
    have valid' : 2 ≤ p.toNat := UInt64.le_iff_toNat_le.mp valid
    exact_mod_cast (by omega : 0 < p.toNat)
  apply exact_or_overflow valid nonneg proper small
  calc ((x * y : ℕ) : ℝ) = (x : ℝ) * y := Nat.cast_mul x y
    _ = (p.toNat : ℝ) ^ (r.toRat : ℝ) * (p.toNat : ℝ) ^ (s.toRat : ℝ) := by
      rw [first.power, second.power]
    _ = (p.toNat : ℝ) ^ (t.toRat : ℝ) := by
      rw [← Real.rpow_add positive, sum, Rat.cast_add]

omit valid nonneg proper in
theorem sum_of_exponents_nine : (computeMultiplicity 9 ⟨1, 1⟩).value.IsWhole 9 := by
  have one : Rational.toRat ⟨1, 1⟩ = Rational.toRat ⟨1, 2⟩ + Rational.toRat ⟨1, 2⟩ := by
    change Rat.divInt 1 1 = Rat.divInt 1 2 + Rat.divInt 1 2
    norm_num [Rat.divInt_eq_div]
  have root : Exact 9 ⟨1, 2⟩ 3 := exact_root (by decide) (by decide) (by decide) (by decide)
  have taken := sum_of_exponents (by decide) (by decide) (by decide) one root root (by decide)
  refine (taken.resolve_right ?_).whole
  rw [error_eq_overflow_iff (by decide) (by decide) (by decide)]
  decide

theorem product_of_exponents (product : t.toRat = r.toRat * s.toRat) (first : Exact p r x)
    (second : Exact (UInt64.ofNat x) s y) :
    Exact p t y ∨ (computeMultiplicity p t).value.error = .overflow := by
  have word : (UInt64.ofNat x).toNat = x :=
    UInt64.toNat_ofNat_of_lt' (by have := first.small; simp [UInt64.size]; omega)
  apply exact_or_overflow valid nonneg proper second.small
  calc (y : ℝ) = (x : ℝ) ^ (s.toRat : ℝ) := by rw [second.power, word]
    _ = ((p.toNat : ℝ) ^ (r.toRat : ℝ)) ^ (s.toRat : ℝ) := by rw [first.power]
    _ = (p.toNat : ℝ) ^ (t.toRat : ℝ) := by
      rw [← Real.rpow_mul p.toNat.cast_nonneg, product, Rat.cast_mul]

omit valid nonneg proper in
theorem product_of_exponents_sixteen : (computeMultiplicity 16 ⟨1, 4⟩).value.IsWhole 2 := by
  have fourth : Rational.toRat ⟨1, 4⟩ = Rational.toRat ⟨1, 2⟩ * Rational.toRat ⟨1, 2⟩ := by
    change Rat.divInt 1 4 = Rat.divInt 1 2 * Rat.divInt 1 2
    norm_num [Rat.divInt_eq_div]
  have root : Exact 16 ⟨1, 2⟩ 4 := exact_root (by decide) (by decide) (by decide) (by decide)
  have root' : Exact 4 ⟨1, 2⟩ 2 := exact_root (by decide) (by decide) (by decide) (by decide)
  have taken := product_of_exponents (by decide) (by decide) (by decide) fourth root root'
  refine (taken.resolve_right ?_).whole
  rw [error_eq_overflow_iff (by decide) (by decide) (by decide)]
  decide

end Laws

end SovereignPirtm.Multiplicity
