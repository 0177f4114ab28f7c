import Mathlib.Data.Rat.Lemmas
import SovereignPirtm.Multiplicity.Functor

/-!
# Rationals in lowest terms

Away from the least integer, `Rational` holds the numerator and the denominator of the rational number
that it was built for.
-/

namespace SovereignPirtm.Multiplicity
open Library

/-! ## Signed arithmetic -/

theorem toInt_neg_of_ne_min {x : Int64} (ordinary : x ≠ Int64.minValue) :
    (-x).toInt = -x.toInt := by
  have lower : x.toInt ≠ -2 ^ 63 := fun same => ordinary (Int64.toInt_inj.mp same)
  have low := x.le_toInt
  have high := x.toInt_lt
  rw [Int64.toInt_neg, Int.bmod_eq_of_le]
  · omega
  · omega

theorem natAbs_lt_of_ne_min {x : Int64} (ordinary : x ≠ Int64.minValue) :
    x.toInt.natAbs < 2 ^ 63 := by
  have lower : x.toInt ≠ -2 ^ 63 := fun same => ordinary (Int64.toInt_inj.mp same)
  have low := x.le_toInt
  have high := x.toInt_lt
  omega

theorem natAbs_abs (x : Int64) : x.abs.toInt.natAbs = x.toInt.natAbs := by
  have bits : x.abs.toInt = x.toBitVec.abs.toInt := rfl
  rw [bits, BitVec.toInt_abs_eq_natAbs]
  split
  · rename_i least
    rw [show x.toInt = x.toBitVec.toInt from rfl, least]
  · exact Int.natAbs_natCast _

theorem toInt_gcd (x : Int64) {y : Int64} (positive : 0 < y.toInt) :
    (gcd x y).toInt = Int.gcd x.toInt y.toInt := by
  have bound : Int.gcd x.toInt y.toInt ≤ y.toInt.natAbs :=
    Nat.le_of_dvd (by omega) (Nat.gcd_dvd_right _ _)
  have high := y.toInt_lt
  rw [gcd, Int64.toInt_ofNat_of_lt]
  · rfl
  · have small : Int.gcd x.toInt y.toInt < 2 ^ 63 := by omega
    exact small

theorem toInt_div_of_dvd {x y : Int64} (ordinary : x ≠ Int64.minValue)
    (divides : y.toInt ∣ x.toInt) : (x / y).toInt = x.toInt / y.toInt := by
  rw [Int64.toInt_div_of_ne_left _ _ ordinary, Int.tdiv_eq_ediv_of_dvd divides]

/-! ## Reduction -/

namespace Rational

def oriented (q : Rational) : Rational := if q.denom < 0 then ⟨-q.numer, -q.denom⟩ else q

theorem reduce_value (q : Rational) : q.reduce.value =
    if q.denom = 0 then q
    else
      let g := gcd q.oriented.numer.abs q.oriented.denom
      if g > 1 then ⟨q.oriented.numer / g, q.oriented.denom / g⟩ else q.oriented := by
  unfold reduce oriented
  by_cases zero : q.denom = 0
  · simp [zero]
  · by_cases negative : q.denom < 0
    · simp only [zero, negative, if_true, if_false, negate, absolute, Traced.value_bind,
        Traced.value_note, Traced.value_pure]
      exact apply_ite Traced.value _ _ _
    · simp only [zero, negative, if_false, absolute, Traced.value_bind, Traced.value_note,
        Traced.value_pure]
      exact apply_ite Traced.value _ _ _

theorem ext_toInt {q r : Rational} (numer : q.numer.toInt = r.numer.toInt)
    (denom : q.denom.toInt = r.denom.toInt) : q = r := by
  cases q
  cases r
  congr 1
  · exact Int64.toInt_inj.mp numer
  · exact Int64.toInt_inj.mp denom

theorem equal_iff {q r : Rational} : q.equal r ↔ q = r := by
  cases q
  cases r
  simp [equal]

def toRat (q : Rational) : ℚ := Rat.divInt q.numer.toInt q.denom.toInt

structure Ordinary (q : Rational) : Prop where
  nonzero : q.denom ≠ 0
  numer : q.numer ≠ Int64.minValue
  denom : q.denom ≠ Int64.minValue

section Ordinary
variable {q : Rational} (ordinary : q.Ordinary)
include ordinary

theorem Ordinary.toInt_nonzero : q.denom.toInt ≠ 0 :=
  fun zero => ordinary.nonzero (Int64.toInt_inj.mp zero)

theorem oriented_spec : q.oriented.numer.toInt = q.denom.toInt.sign * q.numer.toInt ∧
    q.oriented.denom.toInt = q.denom.toInt.natAbs := by
  have nonzero := ordinary.toInt_nonzero
  unfold oriented
  split
  · rename_i negative
    have negative' : q.denom.toInt < 0 := Int64.lt_iff_toInt_lt.mp negative
    rw [toInt_neg_of_ne_min ordinary.numer, toInt_neg_of_ne_min ordinary.denom,
      Int.sign_eq_neg_one_of_neg negative']
    omega
  · rename_i nonneg
    have positive : 0 < q.denom.toInt := by
      rw [Int64.lt_iff_toInt_lt, show (0 : Int64).toInt = 0 from rfl] at nonneg
      omega
    rw [Int.sign_eq_one_of_pos positive]
    omega

theorem reduce_spec : q.reduce.value.numer.toInt = q.toRat.num ∧
    q.reduce.value.denom.toInt = q.toRat.den := by
  have nonzero := ordinary.toInt_nonzero
  obtain ⟨upper, lower⟩ := oriented_spec ordinary
  have magnitude : q.oriented.numer.toInt.natAbs = q.numer.toInt.natAbs := by
    rw [upper, Int.natAbs_mul, Int.natAbs_sign_of_ne_zero nonzero, one_mul]
  have positive : 0 < q.oriented.denom.toInt := by omega
  have divisor : (gcd q.oriented.numer.abs q.oriented.denom).toInt =
      Int.gcd q.denom.toInt q.numer.toInt := by
    rw [toInt_gcd _ positive, Int.gcd, natAbs_abs, magnitude, lower, Int.natAbs_natCast,
      Nat.gcd_comm]
    rfl
  have divides : (Int.gcd q.denom.toInt q.numer.toInt : Int) ∣ q.oriented.numer.toInt := by
    rw [upper]
    exact Dvd.dvd.mul_left (Int.gcd_dvd_right _ _) _
  have divides' : (Int.gcd q.denom.toInt q.numer.toInt : Int) ∣ q.oriented.denom.toInt := by
    rw [lower]
    exact Int.natCast_dvd_natCast.mpr (Nat.gcd_dvd_left _ _)
  have numer : q.oriented.numer ≠ Int64.minValue := by
    intro least
    rw [least, Int64.toInt_minValue] at magnitude
    have bound := natAbs_lt_of_ne_min ordinary.numer
    omega
  have denom : q.oriented.denom ≠ Int64.minValue := by
    intro least
    rw [least] at positive
    exact absurd positive (by decide)
  rw [toRat, Rat.num_divInt, Rat.den_divInt, if_neg nonzero, reduce_value,
    if_neg ordinary.nonzero, ← upper]
  dsimp only
  split
  · rw [toInt_div_of_dvd numer (divisor ▸ divides), toInt_div_of_dvd denom (divisor ▸ divides'),
      divisor, lower]
    exact ⟨rfl, rfl⟩
  · rename_i small
    have some_gcd := Int.gcd_pos_of_ne_zero_left q.numer.toInt nonzero
    rw [gt_iff_lt, Int64.lt_iff_toInt_lt, divisor, show (1 : Int64).toInt = 1 from rfl] at small
    have one : Int.gcd q.denom.toInt q.numer.toInt = 1 := by omega
    rw [one, lower]
    simp

theorem toRat_reduce : q.reduce.value.toRat = q.toRat := by
  obtain ⟨numer, denom⟩ := reduce_spec ordinary
  rw [toRat, numer, denom, Rat.num_divInt_den]

theorem Ordinary.reduce : q.reduce.value.Ordinary := by
  obtain ⟨numer, denom⟩ := reduce_spec ordinary
  have positive := q.toRat.den_pos
  refine ⟨fun zero => ?_, fun least => ?_, fun least => ?_⟩
  · rw [zero, show (0 : Int64).toInt = 0 from rfl] at denom
    omega
  · rw [least, Int64.toInt_minValue] at numer
    have divides : q.toRat.num ∣ q.numer.toInt := Rat.num_dvd _ ordinary.toInt_nonzero
    have nonzero : q.numer.toInt ≠ 0 := by
      intro zero
      rw [toRat, zero, Rat.zero_divInt] at numer
      exact absurd numer (by decide)
    have small := Nat.le_of_dvd (Int.natAbs_pos.mpr nonzero) (Int.natAbs_dvd_natAbs.mpr divides)
    have bound := natAbs_lt_of_ne_min ordinary.numer
    omega
  · rw [least, Int64.toInt_minValue] at denom
    omega

theorem reduce_reduce : q.reduce.value.reduce.value = q.reduce.value := by
  obtain ⟨numer, denom⟩ := reduce_spec ordinary
  obtain ⟨numer', denom'⟩ := reduce_spec ordinary.reduce
  rw [toRat_reduce ordinary] at numer' denom'
  exact ext_toInt (numer'.trans numer.symm) (denom'.trans denom.symm)

theorem reduce_lowest : 0 < q.reduce.value.denom.toInt ∧
    Int.gcd q.reduce.value.numer.toInt q.reduce.value.denom.toInt = 1 := by
  obtain ⟨numer, denom⟩ := reduce_spec ordinary
  rw [numer, denom]
  exact ⟨Int.natCast_pos.mpr q.toRat.den_pos, q.toRat.reduced⟩

variable {r : Rational} (ordinary' : r.Ordinary)
include ordinary'

theorem toRat_eq_iff : q.toRat = r.toRat ↔
    q.numer.toInt * r.denom.toInt = r.numer.toInt * q.denom.toInt :=
  Rat.divInt_eq_divInt_iff ordinary.toInt_nonzero ordinary'.toInt_nonzero

theorem reduce_eq_iff : q.reduce.value = r.reduce.value ↔
    q.numer.toInt * r.denom.toInt = r.numer.toInt * q.denom.toInt := by
  rw [← toRat_eq_iff ordinary ordinary']
  constructor
  · intro same
    rw [← toRat_reduce ordinary, same, toRat_reduce ordinary']
  · intro same
    obtain ⟨numer, denom⟩ := reduce_spec ordinary
    obtain ⟨numer', denom'⟩ := reduce_spec ordinary'
    rw [← same] at numer' denom'
    exact ext_toInt (numer.trans numer'.symm) (denom.trans denom'.symm)

end Ordinary

section New
variable {n d : Int64} (ordinary : Ordinary ⟨n, d⟩)
include ordinary

theorem new_toNat : (new n d).value.numer.toNatClampNeg =
      (Rat.divInt n.toInt d.toInt).num.toNat ∧
    (new n d).value.denom.toNatClampNeg = (Rat.divInt n.toInt d.toInt).den := by
  obtain ⟨numer, denom⟩ := reduce_spec ordinary
  constructor
  · exact congrArg Int.toNat numer
  · exact congrArg Int.toNat denom

theorem new_proper : 1 ≤ (new n d).value.denom :=
  Int64.le_iff_toInt_le.mpr (reduce_lowest ordinary).1

theorem new_numer_nonneg_iff : 0 ≤ (new n d).value.numer ↔
    0 ≤ Rat.divInt n.toInt d.toInt := by
  rw [Int64.le_iff_toInt_le, ← Rat.num_nonneg]
  exact iff_of_eq (congrArg (0 ≤ ·) (reduce_spec ordinary).1)

theorem new_denom_eq_one_iff : (new n d).value.denom = 1 ↔
    (Rat.divInt n.toInt d.toInt).den = 1 := by
  rw [← Int64.toInt_inj, ← Nat.cast_inj (R := ℤ)]
  exact iff_of_eq (congrArg (· = 1) (reduce_spec ordinary).2)

end New

/-- The constructor chooses one representative for each rational number, and so the functor depends
on the number only. -/
theorem new_canonical (n d : Int64) (ordinary : Ordinary ⟨n, d⟩) :
    let q := (new n d).value
    0 < q.denom.toInt ∧ Int.gcd q.numer.toInt q.denom.toInt = 1 ∧
      q.numer.toInt * d.toInt = n.toInt * q.denom.toInt ∧ q.reduce.value = q ∧
      ∀ n' d' : Int64, Ordinary ⟨n', d'⟩ →
        let q' := (new n' d').value
        (q.equal q' = true ↔ n.toInt * d'.toInt = n'.toInt * d.toInt) ∧
        (n.toInt * d'.toInt = n'.toInt * d.toInt →
          ∀ p : UInt64, computeMultiplicity p q = computeMultiplicity p q') := by
  intro q
  obtain ⟨positive, coprime⟩ := reduce_lowest ordinary
  have cross := (toRat_eq_iff ordinary.reduce ordinary).mp (toRat_reduce ordinary)
  refine ⟨positive, coprime, cross, reduce_reduce ordinary, fun n' d' ordinary' => ?_⟩
  have same := reduce_eq_iff ordinary ordinary'
  refine ⟨equal_iff.trans same, fun cross' p => ?_⟩
  exact congrArg (computeMultiplicity p) (same.mpr cross')

theorem new_canonical_four_sixths :
    let q := (new 4 (-6)).value
    q.reduce.value = q ∧ q.equal (new (-2) 3).value = true ∧
      computeMultiplicity 8 q = computeMultiplicity 8 (new (-2) 3).value := by
  obtain ⟨-, -, -, again, other⟩ := new_canonical 4 (-6) ⟨by decide, by decide, by decide⟩
  obtain ⟨equal, result⟩ := other (-2) 3 ⟨by decide, by decide, by decide⟩
  exact ⟨again, equal.mpr (by decide), result (by decide) 8⟩

theorem reduce_events_eq_nil_iff (q : Rational) : q.reduce.events = [] ↔
    q.denom = 0 ∨ (q.numer ≠ Int64.minValue ∧ q.denom ≠ Int64.minValue) := by
  unfold reduce
  by_cases zero : q.denom = 0
  · simp [zero]
  · by_cases negative : q.denom < 0
    · simp only [zero, negative, if_true, if_false, negate, absolute, Traced.events_bind,
        Traced.value_note, Traced.value_pure, Traced.events_pure, List.append_eq_nil_iff,
        Traced.events_note_eq_nil_iff, beq_eq_false_iff_ne, false_or, ne_eq]
      constructor
      · rintro ⟨numer, denom, -⟩
        exact ⟨numer, denom⟩
      · rintro ⟨numer, denom⟩
        refine ⟨numer, denom, trivial, fun least => numer ?_, ?_⟩
        · exact Int64.neg_inj.mp (least.trans (show Int64.minValue = -Int64.minValue by decide))
        · exact Traced.events_ite_pure _ _ _
    · have ordinary : q.denom ≠ Int64.minValue := by
        rintro least
        exact negative (least ▸ by decide)
      simp only [zero, negative, if_false, absolute, Traced.events_bind, Traced.value_note,
        Traced.value_pure, Traced.events_pure, List.append_eq_nil_iff,
        Traced.events_note_eq_nil_iff, beq_eq_false_iff_ne, and_true, true_and, false_or, ordinary,
        not_false_eq_true, ne_eq]
      exact and_iff_left (Traced.events_ite_pure _ _ _)

end Rational
end SovereignPirtm.Multiplicity
