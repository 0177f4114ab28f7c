import SovereignPirtm.Library.Text
import SovereignPirtm.Library.Traced

/-!
# Rational exponentiation

`Rational`, `pow_checked`, `integer_nth_root` and `compute_multiplicity`. Signed operations whose
result the language leaves undefined, or does not keep, take the wrapped value and are recorded.
-/

namespace SovereignPirtm.Multiplicity
open Library

/-! ## Signed arithmetic -/

inductive Hazard where
  | negatesMinimum | absOfMinimum | narrows
deriving DecidableEq

def negate (x : Int64) : Traced Hazard Int64 :=
  Traced.note .negatesMinimum (x == Int64.minValue) (-x)

/-- `std::abs` -/
def absolute (x : Int64) : Traced Hazard Int64 :=
  Traced.note .absOfMinimum (x == Int64.minValue) x.abs

/-- `static_cast<int64_t>` -/
def narrow (x : UInt64) : Traced Hazard Int64 :=
  Traced.note .narrows (x > 9223372036854775807) x.toInt64

/-- `std::gcd` -/
def gcd (x y : Int64) : Int64 := Int64.ofNat (Nat.gcd x.toInt.natAbs y.toInt.natAbs)

/-! ## Rationals -/

structure Rational where
  numer : Int64
  denom : Int64
deriving DecidableEq

namespace Rational

def reduce (q : Rational) : Traced Hazard Rational :=
  if q.denom = 0 then pure q
  else do
    let q ← if q.denom < 0 then do
        let numer ← negate q.numer
        let denom ← negate q.denom
        pure { numer := numer, denom := denom : Rational }
      else pure q
    let size ← absolute q.numer
    let g := gcd size q.denom
    if g > 1 then pure { numer := q.numer / g, denom := q.denom / g } else pure q

def new (n d : Int64) : Traced Hazard Rational := reduce ⟨n, d⟩

/-- `operator==` -/
def equal (q other : Rational) : Bool := q.numer == other.numer && q.denom == other.denom

def toString (q : Rational) : Bytes :=
  if q.denom = 1 then decimalInt q.numer.toInt
  else decimalInt q.numer.toInt ++ str "/" ++ decimalInt q.denom.toInt

end Rational

/-! ## Powers and roots -/

def maxU64 : UInt64 := 18446744073709551615

def powLoop (base result exp : UInt64) : Option UInt64 :=
  if _ : exp = 0 then some result
  else
    let odd := if exp &&& 1 = 1 then
        if result > maxU64 / base then none else some (result * base)
      else some result
    odd.bind fun result =>
      if exp >>> 1 > 0 then
        if base > maxU64 / base then none else powLoop (base * base) result (exp >>> 1)
      else powLoop base result (exp >>> 1)
termination_by exp.toNat
decreasing_by
  all_goals
    have positive : exp.toNat ≠ 0 := fun zero => ‹¬ exp = 0› (UInt64.toNat_inj.mp zero)
    simp [Nat.shiftRight_eq_div_pow]
    omega

def powChecked (base exp : UInt64) : Option UInt64 :=
  if exp = 0 then some 1
  else if base = 0 then some 0
  else if base = 1 then some 1
  else powLoop base 1 exp

def middle (lo hi : UInt64) : UInt64 := lo + (hi - lo + 1) / 2

theorem gap_toNat {lo hi : UInt64} (within : lo < hi) :
    (hi - lo).toNat = hi.toNat - lo.toNat := by
  apply UInt64.toNat_sub_of_le
  exact UInt64.le_of_lt within

theorem half_gap_toNat {lo hi : UInt64} (positive : 0 < lo) (within : lo < hi) :
    ((hi - lo + 1) / 2).toNat = (hi.toNat - lo.toNat + 1) / 2 := by
  have bound := hi.toNat_lt
  have positive' : 0 < lo.toNat := UInt64.lt_iff_toNat_lt.mp positive
  have within' : lo.toNat < hi.toNat := UInt64.lt_iff_toNat_lt.mp within
  rw [UInt64.toNat_div, UInt64.toNat_add, gap_toNat within]
  simp
  omega

theorem middle_toNat {lo hi : UInt64} (positive : 0 < lo) (within : lo < hi) :
    (middle lo hi).toNat = lo.toNat + (hi.toNat - lo.toNat + 1) / 2 := by
  have bound := hi.toNat_lt
  have within' : lo.toNat < hi.toNat := UInt64.lt_iff_toNat_lt.mp within
  rw [middle, UInt64.toNat_add, half_gap_toNat positive within]
  exact Nat.mod_eq_of_lt (by omega)

/-- The loop of `integer_nth_root`. Its lower end is never zero, so `hi - lo + 1` never wraps. -/
def rootLoop (v n lo hi : UInt64) (positive : 0 < lo) : UInt64 :=
  if within : lo < hi then
    if (powChecked (middle lo hi) n).any (· ≤ v) then
      rootLoop v n (middle lo hi) hi (by
        have mid := middle_toNat positive within
        have positive' : 0 < lo.toNat := UInt64.lt_iff_toNat_lt.mp positive
        exact UInt64.lt_iff_toNat_lt.mpr (by simp; omega))
    else rootLoop v n lo (middle lo hi - 1) positive
  else lo
termination_by hi.toNat - lo.toNat
decreasing_by
  · have mid := middle_toNat positive within
    have within' := UInt64.lt_iff_toNat_lt.mp within
    omega
  · have mid := middle_toNat positive within
    have within' := UInt64.lt_iff_toNat_lt.mp within
    have one : (1 : UInt64) ≤ middle lo hi := UInt64.le_iff_toNat_le.mpr (by simp; omega)
    rw [UInt64.toNat_sub_of_le _ _ one]
    simp
    omega

def integerNthRoot (v n : UInt64) : UInt64 :=
  if n = 0 then 1
  else if n = 1 then v
  else if v ≤ 1 then v
  else rootLoop v n 1 v (by decide)

/-! ## The functor -/

inductive MultiplicityError where
  | none | overflow | zeroDenominator | invalidPrime | negativeExponent
deriving DecidableEq

def formatError (error : MultiplicityError) (prime : UInt64) (exponent : Rational) : Bytes :=
  match error with
  | .none => str "no error"
  | .overflow => str "PM001: Multiplicity overflow: " ++ decimal prime.toNat ++ str "^" ++
      exponent.toString ++ str " exceeds u64 range"
  | .zeroDenominator => str "PM002: Zero denominator in rational exponent"
  | .invalidPrime =>
      str "PM003: Invalid prime index " ++ decimal prime.toNat ++ str " (must be >= 2)"
  | .negativeExponent =>
      str "PM004: Negative exponent " ++ exponent.toString ++ str " not supported"

structure MultiplicityResult where
  value : Rational
  error : MultiplicityError
  errorMsg : Bytes
deriving DecidableEq

def isValidPrime (p : UInt64) : Bool := p ≥ 2

def failed (error : MultiplicityError) (prime : UInt64) (exponent : Rational) :
    Traced Hazard MultiplicityResult := do
  let value ← Rational.new 0 1
  pure { value := value, error := error, errorMsg := formatError error prime exponent }

def succeeded (value : Traced Hazard Rational) : Traced Hazard MultiplicityResult := do
  let _ ← Rational.new 0 1
  let value ← value
  pure { value := value, error := .none, errorMsg := [] }

def computeMultiplicity (prime : UInt64) (exponent : Rational) : Traced Hazard MultiplicityResult :=
  if !isValidPrime prime then failed .invalidPrime prime exponent
  else if exponent.denom = 0 then failed .zeroDenominator prime exponent
  else if exponent.numer < 0 then failed .negativeExponent prime exponent
  else if exponent.numer = 0 then succeeded (Rational.new 1 1)
  else if prime = 1 then succeeded (Rational.new 1 1)
  else if exponent.denom = 1 then
    match powChecked prime exponent.numer.toUInt64 with
    | some val => succeeded do
        let numer ← narrow val
        Rational.new numer 1
    | none => failed .overflow prime exponent
  else
    match powChecked prime exponent.numer.toUInt64 with
    | none => failed .overflow prime exponent
    | some pa =>
        let root := integerNthRoot pa exponent.denom.toUInt64
        if powChecked root exponent.denom.toUInt64 = some pa then succeeded do
          let numer ← narrow root
          Rational.new numer 1
        else succeeded do
          let numer ← narrow pa
          let value ← Rational.new numer exponent.denom
          value.reduce

end SovereignPirtm.Multiplicity
