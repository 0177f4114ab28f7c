import SovereignPirtm.Multiplicity.Canonical
import SovereignPirtm.Multiplicity.Exactness

/-!
# When no signed operation goes wrong

The exponents for which building the rational and raising the prime to it records no hazard.
-/

namespace SovereignPirtm.Multiplicity
open Library

def multiplicityOf (prime : UInt64) (n d : Int64) : Traced Hazard MultiplicityResult := do
  let exponent ← Rational.new n d
  computeMultiplicity prime exponent

/-! ## Events of the parts -/

theorem new_events_eq_nil_iff (n d : Int64) : (Rational.new n d).events = [] ↔
    d = 0 ∨ (n ≠ Int64.minValue ∧ d ≠ Int64.minValue) :=
  Rational.reduce_events_eq_nil_iff ⟨n, d⟩

theorem failed_events (error : MultiplicityError) (prime : UInt64) (exponent : Rational) :
    (failed error prime exponent).events = [] := by
  have start := (new_events_eq_nil_iff 0 1).mpr (.inr ⟨by decide, by decide⟩)
  rw [failed, Traced.events_bind, start]
  rfl

theorem succeeded_events (value : Traced Hazard Rational) :
    (succeeded value).events = value.events := by
  have start := (new_events_eq_nil_iff 0 1).mpr (.inr ⟨by decide, by decide⟩)
  rw [succeeded, Traced.events_bind, start, List.nil_append, Traced.events_bind,
    Traced.events_pure, List.append_nil]

theorem narrow_events_eq_nil_iff (x : UInt64) : (narrow x).events = [] ↔ x.toNat < 2 ^ 63 := by
  rw [narrow, Traced.events_note_eq_nil_iff, decide_eq_false_iff_not, gt_iff_lt,
    UInt64.lt_iff_toNat_lt, show (9223372036854775807 : UInt64).toNat = 2 ^ 63 - 1 from rfl]
  omega

theorem toInt64_ne_min {x : UInt64} (small : x.toNat < 2 ^ 63) : x.toInt64 ≠ Int64.minValue := by
  intro least
  have value := toInt_toInt64 x
  rw [if_pos small, least, Int64.toInt_minValue] at value
  omega

theorem ne_min_of_proper {x : Int64} (proper : 1 ≤ x) : x ≠ Int64.minValue := by
  rintro rfl
  exact absurd proper (by decide)

theorem whole_events_eq_nil_iff (x : UInt64) :
    (narrow x >>= (Rational.new · 1)).events = [] ↔ x.toNat < 2 ^ 63 := by
  rw [Traced.events_bind, List.append_eq_nil_iff, narrow_events_eq_nil_iff, new_events_eq_nil_iff]
  exact and_iff_left_of_imp fun small => .inr ⟨toInt64_ne_min small, by decide⟩

theorem fraction_events_eq_nil_iff (x : UInt64) {d : Int64} (proper : 1 ≤ d) :
    (narrow x >>= fun numer => Rational.new numer d >>= Rational.reduce).events = [] ↔
      x.toNat < 2 ^ 63 := by
  rw [Traced.events_bind, List.append_eq_nil_iff, narrow_events_eq_nil_iff]
  refine and_iff_left_of_imp fun small => ?_
  have nonzero : d ≠ 0 := by
    rintro rfl
    exact absurd proper (by decide)
  have ordinary : Rational.Ordinary ⟨x.toInt64, d⟩ :=
    ⟨nonzero, toInt64_ne_min small, ne_min_of_proper proper⟩
  have again := ordinary.reduce
  rw [Traced.events_bind, List.append_eq_nil_iff, new_events_eq_nil_iff]
  refine ⟨.inr ⟨ordinary.numer, ordinary.denom⟩, ?_⟩
  exact (Rational.reduce_events_eq_nil_iff _).mpr (.inr ⟨again.numer, again.denom⟩)

/-! ## Events of the functor -/

section Accepted
variable {p : UInt64} {q : Rational} (valid : 2 ≤ p) (nonneg : 0 ≤ q.numer) (proper : 1 ≤ q.denom)
include valid nonneg proper

theorem computeMultiplicity_events_eq_nil_iff : (computeMultiplicity p q).events = [] ↔
    p.toNat ^ q.numer.toNatClampNeg < 2 ^ 63 ∨ 2 ^ 64 ≤ p.toNat ^ q.numer.toNatClampNeg ∨
      (q.denom ≠ 1 ∧ ∃ s, s ^ q.denom.toNatClampNeg = p.toNat ^ q.numer.toNatClampNeg) := by
  have degree : q.denom.toUInt64.toNat = q.denom.toNatClampNeg :=
    toNat_toUInt64 (zero_le_of_one_le proper)
  have positive : 1 ≤ q.denom.toNatClampNeg := toNatClampNeg_mono proper
  have nonzero : q.denom.toNatClampNeg ≠ 0 := Nat.ne_of_gt positive
  rw [computeMultiplicity_valid valid nonneg proper]
  by_cases zero : q.numer = 0
  · have start := (new_events_eq_nil_iff 1 1).mpr (.inr ⟨by decide, by decide⟩)
    rw [if_pos zero, succeeded_events, start, zero, show (0 : Int64).toNatClampNeg = 0 from rfl]
    simp
  rw [if_neg zero]
  cases power : fits (p.toNat ^ q.numer.toNatClampNeg) with
  | none =>
      have large := fits_eq_none_iff.mp power
      simp only [failed_events, large, true_or, or_true]
  | some pa =>
      have pa_eq := fits_eq_some_iff.mp power
      have bound := pa.toNat_lt
      rw [← pa_eq]
      dsimp only
      split
      · rename_i whole
        rw [succeeded_events, whole_events_eq_nil_iff]
        simp only [whole, ne_eq, not_true_eq_false, false_and, or_false]
        omega
      · rename_i fractional
        have found := integerNthRoot_spec pa (n := q.denom.toUInt64) (degree ▸ nonzero)
        rw [degree] at found
        rw [← found.pow_eq_iff nonzero]
        split
        · rename_i is_root
          -- A root of degree two or more is small, so its conversion is faithful.
          have higher : 2 ≤ q.denom.toNatClampNeg := by
            have not_one : q.denom.toInt ≠ 1 := fun one => fractional (Int64.toInt_inj.mp one)
            rw [Int64.toNatClampNeg] at positive ⊢
            omega
          have half : (integerNthRoot pa q.denom.toUInt64).toNat < 2 ^ 32 :=
            lt_of_pow_lt_square higher (is_root ▸ bound)
          rw [succeeded_events, whole_events_eq_nil_iff]
          simp only [fractional, is_root, ne_eq, not_false_eq_true, and_self, or_true, iff_true]
          omega
        · rename_i inexact
          rw [succeeded_events, fraction_events_eq_nil_iff pa proper]
          simp only [inexact, and_false, or_false]
          omega

end Accepted

theorem refused_events {p : UInt64} {q : Rational}
    (refused : p < 2 ∨ q.denom = 0 ∨ q.numer < 0) : (computeMultiplicity p q).events = [] := by
  unfold computeMultiplicity
  split
  · exact failed_events _ _ _
  rename_i valid
  have prime : ¬ p < 2 := by
    rw [isValidPrime] at valid
    simpa [UInt64.not_lt] using valid
  have refused := refused.resolve_left prime
  split
  · exact failed_events _ _ _
  rename_i nonzero
  rw [if_pos (refused.resolve_left nonzero)]
  exact failed_events _ _ _

/-! ## The constructor and the functor together -/

section Ordinary
variable {p : UInt64} {n d : Int64} (ordinary : Rational.Ordinary ⟨n, d⟩)
include ordinary

theorem multiplicityOf_events : (multiplicityOf p n d).events =
    (computeMultiplicity p (Rational.new n d).value).events := by
  have start := (new_events_eq_nil_iff n d).mpr (.inr ⟨ordinary.numer, ordinary.denom⟩)
  rw [multiplicityOf, Traced.events_bind, start, List.nil_append]

theorem multiplicityOf_events_eq_nil_iff :
    let q := Rat.divInt n.toInt d.toInt
    (multiplicityOf p n d).events = [] ↔
      p < 2 ∨ q ≤ 0 ∨ p.toNat ^ q.num.toNat < 2 ^ 63 ∨ 2 ^ 64 ≤ p.toNat ^ q.num.toNat ∨
        (q.den ≠ 1 ∧ ∃ s, s ^ q.den = p.toNat ^ q.num.toNat) := by
  intro q
  obtain ⟨numer, denom⟩ := Rational.new_toNat ordinary
  rw [multiplicityOf_events ordinary]
  by_cases invalid : p < 2
  · simp only [refused_events (.inl invalid), invalid, true_or]
  have valid : 2 ≤ p := UInt64.not_lt.mp invalid
  by_cases negative : (Rational.new n d).value.numer < 0
  · have below : q ≤ 0 := by
      rw [← Int64.not_le, Rational.new_numer_nonneg_iff ordinary] at negative
      exact (not_le.mp negative).le
    simp only [refused_events (.inr (.inr negative)), below, true_or, or_true]
  have nonneg := Int64.not_lt.mp negative
  rw [computeMultiplicity_events_eq_nil_iff valid nonneg (Rational.new_proper ordinary), numer, denom,
    ne_eq, Rational.new_denom_eq_one_iff ordinary]
  have zero : q ≤ 0 → p.toNat ^ q.num.toNat < 2 ^ 63 := by
    intro below
    have num_le : q.num ≤ 0 := Rat.num_nonpos.mpr below
    rw [Int.toNat_of_nonpos num_le, pow_zero]
    decide
  simp only [invalid, false_or]
  exact ⟨.inr, fun safe => safe.elim (fun below => .inl (zero below)) id⟩

theorem overflow_surfaces (valid : 2 ≤ p) (nonneg : 0 ≤ Rat.divInt n.toInt d.toInt)
    (large : 2 ^ 64 ≤ p.toNat ^ (Rat.divInt n.toInt d.toInt).num.toNat) :
    (multiplicityOf p n d).value.error = .overflow := by
  rw [← (Rational.new_toNat ordinary).1] at large
  have numer := (Rational.new_numer_nonneg_iff ordinary).mpr nonneg
  exact (error_eq_overflow_iff valid numer (Rational.new_proper ordinary)).mpr large

end Ordinary

theorem zero_denominator_events (p : UInt64) (n : Int64) : (multiplicityOf p n 0).events = [] := by
  have started := (new_events_eq_nil_iff n 0).mpr (.inl rfl)
  have zero : (Rational.new n 0).value.denom = 0 := rfl
  rw [multiplicityOf, Traced.events_bind, started, refused_events (.inr (.inl zero))]
  rfl

theorem new_events_of_multiplicityOf {p : UInt64} {n d : Int64}
    (none : (multiplicityOf p n d).events = []) : (Rational.new n d).events = [] := by
  rw [multiplicityOf, Traced.events_bind, List.append_eq_nil_iff] at none
  exact none.1

def HazardFree (p : UInt64) (n d : Int64) : Prop :=
  (multiplicityOf p n d).events = [] ∧
    (2 ≤ p → d ≠ 0 → 0 ≤ Rat.divInt n.toInt d.toInt →
      2 ^ 64 ≤ p.toNat ^ (Rat.divInt n.toInt d.toInt).num.toNat →
      (multiplicityOf p n d).value.error = .overflow)

/-- No hazard arises when the least integer is not given and the integer that is converted is in the
signed range. -/
theorem hazard_free_iff (p : UInt64) (n d : Int64) :
    HazardFree p n d ↔
      let q := Rat.divInt n.toInt d.toInt
      d = 0 ∨ (n ≠ Int64.minValue ∧ d ≠ Int64.minValue ∧
        (p < 2 ∨ q ≤ 0 ∨ p.toNat ^ q.num.toNat < 2 ^ 63 ∨ 2 ^ 64 ≤ p.toNat ^ q.num.toNat ∨
          (q.den ≠ 1 ∧ ∃ s, s ^ q.den = p.toNat ^ q.num.toNat))) := by
  constructor
  · rintro ⟨events, -⟩
    have started := (new_events_eq_nil_iff n d).mp (new_events_of_multiplicityOf events)
    by_cases zero : d = 0
    · exact .inl zero
    · obtain ⟨numer, denom⟩ := started.resolve_left zero
      have ordinary : Rational.Ordinary ⟨n, d⟩ := ⟨zero, numer, denom⟩
      exact .inr ⟨numer, denom, (multiplicityOf_events_eq_nil_iff ordinary).mp events⟩
  · intro safe
    by_cases zero : d = 0
    · subst zero
      exact ⟨zero_denominator_events p n, fun _ nonzero => absurd rfl nonzero⟩
    · obtain ⟨numer, denom, safe⟩ := safe.resolve_left zero
      have ordinary : Rational.Ordinary ⟨n, d⟩ := ⟨zero, numer, denom⟩
      refine ⟨(multiplicityOf_events_eq_nil_iff ordinary).mpr safe, fun valid _ => ?_⟩
      exact overflow_surfaces ordinary valid

theorem hazards_at_the_ends :
    ¬ HazardFree 2 Int64.minValue 1 ∧ ¬ HazardFree 3 40 1 ∧
      (multiplicityOf 2 Int64.minValue 1).events = [.absOfMinimum] ∧
      (multiplicityOf 3 40 1).events = [.narrows] ∧
      (multiplicityOf 3 40 1).value.error = .none := by
  have least : (multiplicityOf 2 Int64.minValue 1).events = [.absOfMinimum] := by decide +kernel
  have large : (multiplicityOf 3 40 1).events = [.narrows] := by decide +kernel
  refine ⟨fun free => ?_, fun free => ?_, least, large, by decide +kernel⟩
  · cases least.symm.trans free.1
  · cases large.symm.trans free.1

end SovereignPirtm.Multiplicity
