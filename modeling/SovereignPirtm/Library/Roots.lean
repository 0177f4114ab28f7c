import Mathlib.Analysis.SpecialFunctions.Pow.Real
import Mathlib.Tactic

/-!
# Powers and integer roots

The integer root of a number, and the numbers that are powers.
-/

namespace SovereignPirtm.Library
variable {n v r : Nat}

def IsFloorRoot (n v r : Nat) : Prop := r ^ n ≤ v ∧ v < (r + 1) ^ n

theorem IsFloorRoot.unique {s : Nat} (root : IsFloorRoot n v r) (other : IsFloorRoot n v s) :
    r = s := by
  have le (a b : Nat) (low : a ^ n ≤ v) (high : v < (b + 1) ^ n) : a ≤ b :=
    Nat.le_of_lt_succ (lt_of_pow_lt_pow_left₀ n (Nat.zero_le _) (low.trans_lt high))
  exact le_antisymm (le r s root.1 other.2) (le s r other.1 root.2)

theorem IsFloorRoot.pow_eq_iff (root : IsFloorRoot n v r) (nonzero : n ≠ 0) :
    r ^ n = v ↔ ∃ s, s ^ n = v := by
  refine ⟨fun same => ⟨r, same⟩, ?_⟩
  rintro ⟨s, rfl⟩
  have other : IsFloorRoot n (s ^ n) s :=
    ⟨le_rfl, Nat.pow_lt_pow_left (Nat.lt_succ_self _) nonzero⟩
  rw [root.unique other]

theorem lt_of_pow_lt_square {k : Nat} (fractional : 2 ≤ n) (small : r ^ n < k ^ 2) : r < k := by
  rcases Nat.eq_zero_or_pos r with rfl | positive
  · exact Nat.pos_of_ne_zero fun zero => by simp [zero] at small
  · have square := (Nat.pow_le_pow_right positive fractional).trans_lt small
    exact lt_of_pow_lt_pow_left₀ 2 (Nat.zero_le _) square

theorem exists_pow_eq_of_mul_pow {x y k : Nat} (positive : 0 < y) (nonzero : n ≠ 0)
    (same : x ^ n = k * y ^ n) : ∃ s, s ^ n = k := by
  have divides : y ∣ x := (Nat.pow_dvd_pow_iff nonzero).mp (Dvd.intro_left k same.symm)
  obtain ⟨s, rfl⟩ := divides
  refine ⟨s, Nat.eq_of_mul_eq_mul_right (pow_pos positive n) ?_⟩
  rw [← same, mul_pow, mul_comm]

theorem pow_square_half (base exp : Nat) :
    base ^ exp = (base * base) ^ (exp / 2) * base ^ (exp % 2) := by
  rw [← pow_two, ← pow_mul, ← pow_add, Nat.div_add_mod]

theorem rpow_div_pow {a : Nat} (b : Nat) (nonzero : a ≠ 0) :
    ((v : ℝ) ^ ((b : ℝ) / a)) ^ a = (v : ℝ) ^ b := by
  rw [← Real.rpow_natCast, ← Real.rpow_mul v.cast_nonneg,
    div_mul_cancel₀ _ (Nat.cast_ne_zero.mpr nonzero), Real.rpow_natCast]

theorem natCast_le_rpow_div_iff (x : Nat) {a : Nat} (b : Nat) (nonzero : a ≠ 0) :
    (x : ℝ) ≤ (v : ℝ) ^ ((b : ℝ) / a) ↔ x ^ a ≤ v ^ b := by
  have nonneg : (0 : ℝ) ≤ v := v.cast_nonneg
  rw [← pow_le_pow_iff_left₀ x.cast_nonneg (Real.rpow_nonneg nonneg _) nonzero,
    rpow_div_pow b nonzero]
  exact_mod_cast Iff.rfl

theorem natCast_eq_rpow_div_iff (x : Nat) {a : Nat} (b : Nat) (nonzero : a ≠ 0) :
    (x : ℝ) = (v : ℝ) ^ ((b : ℝ) / a) ↔ x ^ a = v ^ b := by
  have nonneg : (0 : ℝ) ≤ v := v.cast_nonneg
  rw [← pow_left_inj₀ x.cast_nonneg (Real.rpow_nonneg nonneg _) nonzero, rpow_div_pow b nonzero]
  exact_mod_cast Iff.rfl

end SovereignPirtm.Library
