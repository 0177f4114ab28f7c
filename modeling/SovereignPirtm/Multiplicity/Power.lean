import SovereignPirtm.Library.Roots
import SovereignPirtm.Multiplicity.Functor

/-!
# Checked powers and integer roots are exact

`pow_checked` returns the power whenever it is in range and nothing otherwise, and
`integer_nth_root` returns the root rounded down.
-/

namespace SovereignPirtm.Multiplicity
open Library

/-! ## Numbers in range -/

def fits (x : Nat) : Option UInt64 := if x < 2 ^ 64 then some (UInt64.ofNat x) else none

theorem fits_eq_some_iff {x : Nat} {r : UInt64} : fits x = some r ↔ r.toNat = x := by
  rw [fits, Option.ite_none_right_eq_some, Option.some.injEq]
  constructor
  · rintro ⟨small, rfl⟩
    exact UInt64.toNat_ofNat_of_lt' small
  · rintro rfl
    exact ⟨r.toNat_lt, UInt64.ofNat_toNat⟩

theorem fits_eq_none_iff {x : Nat} : fits x = none ↔ 2 ^ 64 ≤ x := by
  unfold fits
  split <;> simp_all

theorem fits_toNat (r : UInt64) : fits r.toNat = some r := fits_eq_some_iff.mpr rfl

theorem gt_max_div_iff (x : UInt64) {y : UInt64} (positive : 0 < y.toNat) :
    x > maxU64 / y ↔ 2 ^ 64 ≤ x.toNat * y.toNat := by
  have max : maxU64.toNat = 2 ^ 64 - 1 := rfl
  rw [gt_iff_lt, UInt64.lt_iff_toNat_lt, UInt64.toNat_div, Nat.div_lt_iff_lt_mul positive, max]
  omega

theorem toNat_mul_of_fits {x y : UInt64} (small : x.toNat * y.toNat < 2 ^ 64) :
    (x * y).toNat = x.toNat * y.toNat := by
  rw [UInt64.toNat_mul, Nat.mod_eq_of_lt small]

theorem mul_checked (x : UInt64) {y : UInt64} (positive : 0 < y.toNat) :
    (if x > maxU64 / y then none else some (x * y)) = fits (x.toNat * y.toNat) := by
  split
  · rename_i overflow
    rw [fits_eq_none_iff.mpr ((gt_max_div_iff x positive).mp overflow)]
  · rename_i small
    rw [gt_max_div_iff x positive, not_le] at small
    exact (fits_eq_some_iff.mpr (toNat_mul_of_fits small)).symm

/-! ## Powers -/

theorem half_toNat (exp : UInt64) : (exp >>> 1).toNat = exp.toNat / 2 := by
  simp [Nat.shiftRight_eq_div_pow]

theorem odd_iff (exp : UInt64) : exp &&& 1 = 1 ↔ exp.toNat % 2 = 1 := by
  rw [← UInt64.toNat_inj, UInt64.toNat_and]
  simp [Nat.and_one_is_mod]

theorem odd_step {base : UInt64} (result exp : UInt64) (positive : 0 < base.toNat) :
    (if exp &&& 1 = 1 then if result > maxU64 / base then none else some (result * base)
      else some result) = fits (result.toNat * base.toNat ^ (exp.toNat % 2)) := by
  rw [mul_checked result positive]
  split
  · rename_i odd
    rw [(odd_iff exp).mp odd, pow_one]
  · rename_i even
    have zero : exp.toNat % 2 = 0 := by
      rw [odd_iff] at even
      omega
    rw [zero, pow_zero, mul_one, fits_toNat]

theorem powLoop_zero (base result : UInt64) : powLoop base result 0 = some result := by
  rw [powLoop, dif_pos rfl]

theorem square_step {base r exp : UInt64} (large : 2 ≤ base.toNat) (some_r : 0 < r.toNat)
    (again : 0 < exp.toNat / 2 → base.toNat * base.toNat < 2 ^ 64 →
      powLoop (base * base) r (exp >>> 1) =
        fits (r.toNat * (base * base).toNat ^ (exp.toNat / 2))) :
    (if exp >>> 1 > 0 then
        if base > maxU64 / base then none else powLoop (base * base) r (exp >>> 1)
      else powLoop base r (exp >>> 1)) =
      fits (r.toNat * (base.toNat * base.toNat) ^ (exp.toNat / 2)) := by
  have more_iff : exp >>> 1 > 0 ↔ 0 < exp.toNat / 2 := by
    rw [gt_iff_lt, UInt64.lt_iff_toNat_lt, half_toNat]
    rfl
  have check := gt_max_div_iff base (show 0 < base.toNat by omega)
  split
  · rename_i more
    rw [more_iff] at more
    split
    · rename_i overflow
      rw [check] at overflow
      have grows := Nat.le_self_pow more.ne' (base.toNat * base.toNat)
      have beyond := (overflow.trans grows).trans (Nat.le_mul_of_pos_left _ some_r)
      exact (fits_eq_none_iff.mpr beyond).symm
    · rename_i square
      rw [check, not_le] at square
      rw [again more square, toNat_mul_of_fits square]
  · rename_i last
    rw [more_iff, not_lt, Nat.le_zero] at last
    have zero : exp >>> 1 = 0 := UInt64.toNat_inj.mp (by rw [half_toNat, last]; rfl)
    rw [zero, powLoop_zero, last, pow_zero, mul_one, fits_toNat]

theorem powLoop_eq {base : UInt64} (result exp : UInt64) (large : 2 ≤ base.toNat)
    (positive : 0 < result.toNat) :
    powLoop base result exp = fits (result.toNat * base.toNat ^ exp.toNat) := by
  induction size : exp.toNat using Nat.strong_induction_on generalizing base result exp with
  | _ e ih =>
      subst size
      have square_large : 2 ≤ base.toNat * base.toNat := large.trans (Nat.le_mul_self _)
      rw [powLoop]
      split
      · rename_i zero
        simp [zero, fits_toNat]
      simp only [odd_step result exp (show 0 < base.toNat by omega)]
      rw [pow_square_half base.toNat exp.toNat]
      cases odd : fits (result.toNat * base.toNat ^ (exp.toNat % 2)) with
      | none =>
          rw [fits_eq_none_iff] at odd
          refine (fits_eq_none_iff.mpr (odd.trans (Nat.mul_le_mul_left _ ?_))).symm
          exact Nat.le_mul_of_pos_left _ (pow_pos (by omega) _)
      | some r =>
          rw [fits_eq_some_iff] at odd
          have some_r : 0 < r.toNat := by
            rw [odd]
            exact Nat.mul_pos positive (pow_pos (by omega) _)
          have again (more : 0 < exp.toNat / 2) (square : base.toNat * base.toNat < 2 ^ 64) :=
            ih _ (by omega) r (exp >>> 1) (toNat_mul_of_fits square ▸ square_large) some_r
              (half_toNat exp)
          rw [Option.bind_some, square_step large some_r again, odd]
          congr 1
          ring

theorem powChecked_eq (base exp : UInt64) :
    powChecked base exp = fits (base.toNat ^ exp.toNat) := by
  unfold powChecked
  split
  · rename_i zero
    simp [zero, fits]
  split
  · rename_i nonzero zero
    have positive : exp.toNat ≠ 0 := fun h => nonzero (UInt64.toNat_inj.mp h)
    simp [zero, zero_pow positive, fits]
  split
  · rename_i one
    simp [one, fits]
  · rename_i nonzero not_zero not_one
    have zero : base.toNat ≠ 0 := fun h => not_zero (UInt64.toNat_inj.mp h)
    have one : base.toNat ≠ 1 := fun h => not_one (UInt64.toNat_inj.mp h)
    rw [powLoop_eq 1 exp (by omega) (by decide)]
    simp

/-! ## Roots -/

theorem middle_between {lo hi : UInt64} (positive : 0 < lo) (within : lo < hi) :
    lo.toNat < (middle lo hi).toNat ∧ (middle lo hi).toNat ≤ hi.toNat := by
  have mid := middle_toNat positive within
  have within' : lo.toNat < hi.toNat := UInt64.lt_iff_toNat_lt.mp within
  omega

theorem middle_pos {lo hi : UInt64} (positive : 0 < lo) (within : lo < hi) : 0 < middle lo hi := by
  have mid := middle_between positive within
  exact UInt64.lt_iff_toNat_lt.mpr ((Nat.zero_le _).trans_lt mid.1)

theorem before_middle {lo hi : UInt64} (positive : 0 < lo) (within : lo < hi) :
    (middle lo hi - 1).toNat = (middle lo hi).toNat - 1 := by
  apply UInt64.toNat_sub_of_le
  exact UInt64.le_iff_toNat_le.mpr (UInt64.lt_iff_toNat_lt.mp (middle_pos positive within))

theorem power_le_iff (m n v : UInt64) :
    (powChecked m n).any (· ≤ v) = true ↔ m.toNat ^ n.toNat ≤ v.toNat := by
  rw [powChecked_eq]
  cases power : fits (m.toNat ^ n.toNat) with
  | none =>
      have large := fits_eq_none_iff.mp power
      have small := v.toNat_lt
      simp
      omega
  | some r =>
      rw [← fits_eq_some_iff.mp power, Option.any_some, decide_eq_true_iff, UInt64.le_iff_toNat_le]

theorem rootLoop_spec (v n lo hi : UInt64) (positive : 0 < lo) (ordered : lo.toNat ≤ hi.toNat)
    (below : lo.toNat ^ n.toNat ≤ v.toNat) (above : v.toNat < (hi.toNat + 1) ^ n.toNat) :
    IsFloorRoot n.toNat v.toNat (rootLoop v n lo hi positive).toNat := by
  induction lo, hi, positive using rootLoop.induct v n with
  | case1 lo hi positive within fits ih =>
      have mid := middle_between positive within
      rw [rootLoop, dif_pos within, if_pos fits]
      exact ih mid.2 ((power_le_iff _ _ _).mp fits) above
  | case2 lo hi positive within misses ih =>
      have mid := middle_between positive within
      have before : (middle lo hi - 1).toNat + 1 = (middle lo hi).toNat := by
        have last := before_middle positive within
        omega
      rw [power_le_iff, not_le] at misses
      rw [rootLoop, dif_pos within, if_neg (by rw [power_le_iff]; exact not_le.mpr misses)]
      exact ih (by omega) below (by rwa [before])
  | case3 lo hi positive closed =>
      rw [UInt64.lt_iff_toNat_lt] at closed
      have same : hi.toNat = lo.toNat := by omega
      rw [rootLoop, dif_neg (by rwa [UInt64.lt_iff_toNat_lt])]
      exact ⟨below, same ▸ above⟩

theorem integerNthRoot_spec (v : UInt64) {n : UInt64} (positive : n.toNat ≠ 0) :
    IsFloorRoot n.toNat v.toNat (integerNthRoot v n).toNat := by
  unfold integerNthRoot
  split
  · rename_i zero
    exact absurd (congrArg UInt64.toNat zero) positive
  split
  · rename_i one
    simp [one, IsFloorRoot]
  split
  · rename_i small
    have small' : v.toNat ≤ 1 := UInt64.le_iff_toNat_le.mp small
    interval_cases v.toNat
    · simp [IsFloorRoot, positive]
    · simpa [IsFloorRoot] using Nat.one_lt_two_pow positive
  · rename_i large
    have large' : 1 < v.toNat := by
      rw [UInt64.le_iff_toNat_le] at large
      simpa using large
    refine rootLoop_spec v n 1 v (by decide) large'.le ?_ ?_
    · rw [show (1 : UInt64).toNat = 1 from rfl, one_pow]
      exact large'.le
    · exact (Nat.lt_succ_self _).trans_le (Nat.le_self_pow positive _)

end SovereignPirtm.Multiplicity
