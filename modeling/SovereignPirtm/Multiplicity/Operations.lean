import SovereignPirtm.Library.Traced
import SovereignPirtm.Multiplicity.Power

/-!
# The arithmetic of powers and roots

`pow_checked` and `integer_nth_root` with a record of every operation on machine words that they
perform, and every product that they refuse to compute.
-/

namespace SovereignPirtm.Multiplicity
open Library

inductive Operation where
  | add (x y : UInt64)
  | subtract (x y : UInt64)
  | multiply (x y : UInt64)
  | divide (x y : UInt64)
  | refuse (x y : UInt64)

/-- Computed without wrapping or, for a product, refused with reason. -/
def Operation.Sound : Operation → Prop
  | .add x y => x.toNat + y.toNat ≤ maxU64.toNat
  | .subtract x y => y.toNat ≤ x.toNat
  | .multiply x y => x.toNat * y.toNat ≤ maxU64.toNat
  | .divide _ y => y.toNat ≠ 0
  | .refuse x y => maxU64.toNat < x.toNat * y.toNat

def add (x y : UInt64) : Traced Operation UInt64 := ⟨x + y, [.add x y]⟩

def subtract (x y : UInt64) : Traced Operation UInt64 := ⟨x - y, [.subtract x y]⟩

def checkedProduct (x y : UInt64) : Traced Operation (Option UInt64) :=
  if x > maxU64 / y then ⟨none, [.divide maxU64 y, .refuse x y]⟩
  else ⟨some (x * y), [.divide maxU64 y, .multiply x y]⟩

/-! ## Powers -/

theorem half_lt {exp : UInt64} (nonzero : ¬ exp = 0) : (exp >>> 1).toNat < exp.toNat := by
  have positive : exp.toNat ≠ 0 := fun zero => nonzero (UInt64.toNat_inj.mp zero)
  rw [half_toNat]
  omega

def oddProduct (base result exp : UInt64) : Traced Operation (Option UInt64) :=
  if exp &&& 1 = 1 then checkedProduct result base else pure (some result)

def powLoopTraced (base result exp : UInt64) : Traced Operation (Option UInt64) :=
  if _ : exp = 0 then pure (some result)
  else do
    match ← oddProduct base result exp with
    | none => pure none
    | some result =>
        if exp >>> 1 > 0 then do
          match ← checkedProduct base base with
          | none => pure none
          | some square => powLoopTraced square result (exp >>> 1)
        else powLoopTraced base result (exp >>> 1)
termination_by exp.toNat
decreasing_by all_goals exact half_lt ‹_›

def powCheckedTraced (base exp : UInt64) : Traced Operation (Option UInt64) :=
  if exp = 0 then pure (some 1)
  else if base = 0 then pure (some 0)
  else if base = 1 then pure (some 1)
  else powLoopTraced base 1 exp

theorem checkedProduct_value (x y : UInt64) :
    (checkedProduct x y).value = if x > maxU64 / y then none else some (x * y) := by
  unfold checkedProduct
  split
  all_goals rfl

theorem oddProduct_value (base result exp : UInt64) :
    (oddProduct base result exp).value =
      if exp &&& 1 = 1 then if result > maxU64 / base then none else some (result * base)
      else some result := by
  unfold oddProduct
  split
  · exact checkedProduct_value result base
  · rfl

theorem powLoopTraced_value (base result exp : UInt64) :
    (powLoopTraced base result exp).value = powLoop base result exp := by
  induction base, result, exp using powLoopTraced.induct with
  | case1 base result => rw [powLoopTraced, powLoop_zero, dif_pos rfl, Traced.value_pure]
  | case2 base result exp nonzero squared last =>
      rw [powLoopTraced, dif_neg nonzero, powLoop, dif_neg nonzero, Traced.value_bind,
        oddProduct_value]
      generalize (if exp &&& 1 = 1 then
        if result > maxU64 / base then none else some (result * base) else some result) = odd
      cases odd with
      | none => rfl
      | some result =>
          simp only [Option.bind_some]
          split
          · rw [Traced.value_bind, checkedProduct_value]
            by_cases overflow : base > maxU64 / base
            · rw [if_pos overflow, if_pos overflow, Traced.value_pure]
            · rw [if_neg overflow, if_neg overflow]
              exact squared result (base * base)
          · exact last result

theorem powCheckedTraced_value (base exp : UInt64) :
    (powCheckedTraced base exp).value = powChecked base exp := by
  unfold powCheckedTraced powChecked
  split
  · rfl
  split
  · rfl
  split
  · rfl
  · exact powLoopTraced_value base 1 exp

theorem checkedProduct_sound (x : UInt64) {y : UInt64} (positive : 0 < y.toNat) :
    (checkedProduct x y).All Operation.Sound := by
  have max : maxU64.toNat = 2 ^ 64 - 1 := rfl
  have check := gt_max_div_iff x positive
  unfold checkedProduct
  split
  · rename_i overflow
    rw [check] at overflow
    refine List.forall_mem_cons.mpr ⟨positive.ne', List.forall_mem_singleton.mpr ?_⟩
    rw [Operation.Sound, max]
    omega
  · rename_i small
    rw [check] at small
    refine List.forall_mem_cons.mpr ⟨positive.ne', List.forall_mem_singleton.mpr ?_⟩
    rw [Operation.Sound, max]
    omega

theorem oddProduct_sound {base : UInt64} (positive : 0 < base.toNat) (result exp : UInt64) :
    (oddProduct base result exp).All Operation.Sound := by
  unfold oddProduct
  split
  · exact checkedProduct_sound result positive
  · exact Traced.all_pure _

/-- The base is never zero: a square that wrapped could be, but no square wraps. -/
theorem powLoopTraced_sound {base : UInt64} (result exp : UInt64) (positive : 0 < base.toNat) :
    (powLoopTraced base result exp).All Operation.Sound := by
  induction base, result, exp using powLoopTraced.induct with
  | case1 base result =>
      rw [powLoopTraced, dif_pos rfl]
      exact Traced.all_pure _
  | case2 base result exp nonzero squared last =>
      rw [powLoopTraced, dif_neg nonzero]
      apply (oddProduct_sound positive result exp).bind
      cases (oddProduct base result exp).value with
      | none => exact Traced.all_pure _
      | some result =>
          dsimp only
          split
          · apply (checkedProduct_sound base positive).bind
            rw [checkedProduct_value]
            by_cases square : base > maxU64 / base
            · rw [if_pos square]
              exact Traced.all_pure _
            · rw [if_neg square]
              rw [gt_max_div_iff base positive, not_le] at square
              refine squared result (base * base) ?_
              rw [toNat_mul_of_fits square]
              exact Nat.mul_pos positive positive
          · exact last result positive

theorem powCheckedTraced_sound (base exp : UInt64) :
    (powCheckedTraced base exp).All Operation.Sound := by
  unfold powCheckedTraced
  split
  · exact Traced.all_pure _
  split
  · exact Traced.all_pure _
  split
  · exact Traced.all_pure _
  · rename_i nonzero _
    have base_nonzero : base.toNat ≠ 0 := fun zero => nonzero (UInt64.toNat_inj.mp zero)
    exact powLoopTraced_sound 1 exp (Nat.pos_of_ne_zero base_nonzero)

/-! ## Refusals -/

theorem checkedProduct_refused {x y a b : UInt64}
    (refused : .refuse a b ∈ (checkedProduct x y).events) : (checkedProduct x y).value = none := by
  unfold checkedProduct at refused ⊢
  split
  · rfl
  · rename_i small
    simp [small] at refused

theorem oddProduct_refused {base result exp a b : UInt64}
    (refused : .refuse a b ∈ (oddProduct base result exp).events) :
    (oddProduct base result exp).value = none := by
  unfold oddProduct at refused ⊢
  split at refused
  · rename_i odd
    rw [if_pos odd]
    exact checkedProduct_refused refused
  · exact absurd refused List.not_mem_nil

/-- Nothing is computed after a refusal. -/
theorem powLoopTraced_refused {base result exp a b : UInt64}
    (refused : .refuse a b ∈ (powLoopTraced base result exp).events) :
    (powLoopTraced base result exp).value = none := by
  induction base, result, exp using powLoopTraced.induct with
  | case1 base result =>
      rw [powLoopTraced, dif_pos rfl] at refused
      exact absurd refused List.not_mem_nil
  | case2 base result exp nonzero squared last =>
      rw [powLoopTraced, dif_neg nonzero, Traced.events_bind, List.mem_append] at refused
      rw [powLoopTraced, dif_neg nonzero, Traced.value_bind]
      rcases refused with now | later
      · rw [oddProduct_refused now]
        rfl
      · revert later
        cases (oddProduct base result exp).value with
        | none => exact fun _ => rfl
        | some result =>
            dsimp only
            split
            · rw [Traced.events_bind, Traced.value_bind, List.mem_append]
              rintro (square | later)
              · rw [checkedProduct_refused square]
                rfl
              · revert later
                cases (checkedProduct base base).value with
                | none => exact fun _ => rfl
                | some square => exact squared result square
            · exact last result

theorem powCheckedTraced_refused {base exp a b : UInt64}
    (refused : .refuse a b ∈ (powCheckedTraced base exp).events) : powChecked base exp = none := by
  rw [← powCheckedTraced_value]
  unfold powCheckedTraced at refused ⊢
  split at refused
  · exact absurd refused List.not_mem_nil
  split at refused
  · exact absurd refused List.not_mem_nil
  split at refused
  · exact absurd refused List.not_mem_nil
  · rename_i exponent zero one
    rw [if_neg exponent, if_neg zero, if_neg one]
    exact powLoopTraced_refused refused

/-- Every power that fits is returned, every other one refused, and no product on the way wraps. -/
theorem powChecked_exact (base exp : UInt64) :
    (base.toNat ^ exp.toNat ≤ maxU64.toNat →
      ∃ power, powChecked base exp = some power ∧ power.toNat = base.toNat ^ exp.toNat) ∧
    (maxU64.toNat < base.toNat ^ exp.toNat → powChecked base exp = none) ∧
    (powCheckedTraced base exp).value = powChecked base exp ∧
    (powCheckedTraced base exp).All Operation.Sound ∧
    ∀ x y, .refuse x y ∈ (powCheckedTraced base exp).events →
      maxU64.toNat < base.toNat ^ exp.toNat := by
  have max : maxU64.toNat = 2 ^ 64 - 1 := rfl
  have none_iff : powChecked base exp = none ↔ maxU64.toNat < base.toNat ^ exp.toNat := by
    rw [powChecked_eq, fits_eq_none_iff, max]
    omega
  refine ⟨?_, none_iff.mpr, powCheckedTraced_value base exp, powCheckedTraced_sound base exp, ?_⟩
  · intro small
    obtain ⟨power, returned⟩ := Option.ne_none_iff_exists'.mp (none_iff.not.mpr small.not_gt)
    rw [powChecked_eq] at returned
    exact ⟨power, (powChecked_eq base exp).trans returned, fits_eq_some_iff.mp returned⟩
  · intro x y refused
    exact none_iff.mp (powCheckedTraced_refused refused)

/-! ## Roots -/

def middleTraced (lo hi : UInt64) : Traced Operation UInt64 := do
  let gap ← subtract hi lo
  let gap ← add gap 1
  add lo (gap / 2)

theorem middleTraced_value (lo hi : UInt64) : (middleTraced lo hi).value = middle lo hi := rfl

def rootLoopTraced (v n lo hi : UInt64) (positive : 0 < lo) : Traced Operation UInt64 :=
  if within : lo < hi then do
    let ⟨mid, recorded⟩ ← (middleTraced lo hi).attach
    let power ← powCheckedTraced mid n
    if power.any (· ≤ v) then
      rootLoopTraced v n mid hi (by rw [recorded]; exact middle_pos positive within)
    else do
      let ⟨before, same⟩ ← (subtract mid 1).attach
      rootLoopTraced v n lo before positive
  else pure lo
termination_by hi.toNat - lo.toNat
decreasing_by
  · have between := middle_between positive within
    rw [recorded, middleTraced_value]
    omega
  · have between := middle_between positive within
    have last := before_middle positive within
    rw [same, recorded]
    change (middle lo hi - 1).toNat - lo.toNat < _
    omega

theorem zero_lt_one_word : (0 : UInt64) < 1 := by decide

def integerNthRootTraced (v n : UInt64) : Traced Operation UInt64 :=
  if n = 0 then pure 1
  else if n = 1 then pure v
  else if v ≤ 1 then pure v
  else rootLoopTraced v n 1 v zero_lt_one_word

theorem rootLoopTraced_value (v n lo hi : UInt64) (positive : 0 < lo) :
    (rootLoopTraced v n lo hi positive).value = rootLoop v n lo hi positive := by
  induction lo, hi, positive using rootLoop.induct v n with
  | case1 lo hi positive within fits ih =>
      have taken := fits
      rw [← middleTraced_value] at taken
      rw [rootLoopTraced, rootLoop, dif_pos within, dif_pos within, Traced.value_bind_attach,
        Traced.value_bind, powCheckedTraced_value, if_pos taken, if_pos fits]
      exact ih
  | case2 lo hi positive within misses ih =>
      have passed := misses
      rw [← middleTraced_value] at passed
      rw [rootLoopTraced, rootLoop, dif_pos within, dif_pos within, Traced.value_bind_attach,
        Traced.value_bind, powCheckedTraced_value, if_neg passed, if_neg misses,
        Traced.value_bind_attach]
      exact ih
  | case3 lo hi positive closed =>
      rw [rootLoopTraced, rootLoop, dif_neg closed, dif_neg closed, Traced.value_pure]

theorem integerNthRootTraced_value (v n : UInt64) :
    (integerNthRootTraced v n).value = integerNthRoot v n := by
  unfold integerNthRootTraced integerNthRoot
  split
  · rfl
  split
  · rfl
  split
  · rfl
  · exact rootLoopTraced_value v n 1 v _

theorem middleTraced_sound {lo hi : UInt64} (positive : 0 < lo) (within : lo < hi) :
    (middleTraced lo hi).All Operation.Sound := by
  have positive' : 0 < lo.toNat := UInt64.lt_iff_toNat_lt.mp positive
  have within' : lo.toNat < hi.toNat := UInt64.lt_iff_toNat_lt.mp within
  have gap : (hi - lo).toNat = hi.toNat - lo.toNat := gap_toNat within
  have half := half_gap_toNat positive within
  have max : maxU64.toNat = 2 ^ 64 - 1 := rfl
  have small := hi.toNat_lt
  have difference : Operation.Sound (.subtract hi lo) := within'.le
  have successor : Operation.Sound (.add (hi - lo) 1) := by
    show (hi - lo).toNat + 1 ≤ maxU64.toNat
    omega
  have sum : Operation.Sound (.add lo ((hi - lo + 1) / 2)) := by
    show lo.toNat + ((hi - lo + 1) / 2).toNat ≤ maxU64.toNat
    omega
  exact List.forall_mem_cons.mpr ⟨difference, List.forall_mem_cons.mpr ⟨successor,
    List.forall_mem_singleton.mpr sum⟩⟩

theorem rootLoopTraced_sound (v n lo hi : UInt64) (positive : 0 < lo) :
    (rootLoopTraced v n lo hi positive).All Operation.Sound := by
  induction lo, hi, positive using rootLoop.induct v n with
  | case1 lo hi positive within fits ih =>
      rw [rootLoopTraced, dif_pos within]
      apply (middleTraced_sound positive within).bind_attach
      apply (powCheckedTraced_sound _ n).bind
      rw [← middleTraced_value] at fits
      rw [powCheckedTraced_value, if_pos fits]
      exact ih
  | case2 lo hi positive within misses ih =>
      rw [rootLoopTraced, dif_pos within]
      apply (middleTraced_sound positive within).bind_attach
      apply (powCheckedTraced_sound _ n).bind
      rw [← middleTraced_value] at misses
      rw [powCheckedTraced_value, if_neg misses]
      have one : 1 ≤ (middle lo hi).toNat := UInt64.lt_iff_toNat_lt.mp (middle_pos positive within)
      have inside : (subtract (middle lo hi) 1).All Operation.Sound := List.forall_mem_singleton.mpr one
      exact inside.bind_attach ih
  | case3 lo hi positive closed =>
      rw [rootLoopTraced, dif_neg closed]
      exact Traced.all_pure _

theorem integerNthRootTraced_sound (v n : UInt64) :
    (integerNthRootTraced v n).All Operation.Sound := by
  unfold integerNthRootTraced
  split
  · exact Traced.all_pure _
  split
  · exact Traced.all_pure _
  split
  · exact Traced.all_pure _
  · exact rootLoopTraced_sound v n 1 v _

/-- The search returns the root rounded down, and its own arithmetic stays in range. -/
theorem integerNthRoot_exact (v : UInt64) {n : UInt64} (positive : 1 ≤ n) :
    IsFloorRoot n.toNat v.toNat (integerNthRoot v n).toNat ∧
    (∀ r : ℕ, IsFloorRoot n.toNat v.toNat r → r = (integerNthRoot v n).toNat) ∧
    (integerNthRootTraced v n).value = integerNthRoot v n ∧
    (integerNthRootTraced v n).All Operation.Sound := by
  have nonzero : n.toNat ≠ 0 := Nat.one_le_iff_ne_zero.mp (UInt64.le_iff_toNat_le.mp positive)
  have root := integerNthRoot_spec v nonzero
  exact ⟨root, fun r other => other.unique root, integerNthRootTraced_value v n,
    integerNthRootTraced_sound v n⟩

theorem integerNthRoot_exact_max :
    IsFloorRoot 2 maxU64.toNat (integerNthRoot maxU64 2).toNat ∧
      (integerNthRootTraced maxU64 2).All Operation.Sound := by
  obtain ⟨root, -, -, sound⟩ := integerNthRoot_exact maxU64 (show (1 : UInt64) ≤ 2 by decide)
  exact ⟨root, sound⟩

end SovereignPirtm.Multiplicity
