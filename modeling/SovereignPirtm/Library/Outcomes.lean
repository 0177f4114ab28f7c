import SovereignPirtm.Library.Tableau

/-!
# Joint outcomes

What a measurement of several wires at once finds, from the means of the signs of their parities.
Where each mean is a sign or zero, all outcomes that can occur are equally likely.
-/

namespace SovereignPirtm.Library
open scoped symmDiff
open ComplexConjugate
variable {W : Type*} [DecidableEq W]

/-! ## Families closed under symmetric differences -/

structure Closed (family : Finset (Finset W)) : Prop where
  empty : ∅ ∈ family
  symmDiff : ∀ t ∈ family, ∀ u ∈ family, t ∆ u ∈ family

namespace Closed
variable {family : Finset (Finset W)} (closed : Closed family)
include closed

theorem avoiding (q : W) : Closed (family.filter (q ∉ ·)) := by
  refine ⟨Finset.mem_filter.mpr ⟨closed.empty, Finset.notMem_empty q⟩, fun t inside u inside' => ?_⟩
  rw [Finset.mem_filter] at inside inside' ⊢
  refine ⟨closed.symmDiff t inside.1 u inside'.1, fun member => ?_⟩
  rcases Finset.mem_symmDiff.mp member with found | found
  · exact inside.2 found.1
  · exact inside'.2 found.1

/-- A set with the wire pairs the sets that have it with those that do not. -/
theorem card_avoiding {q : W} {t : Finset W} (inside : t ∈ family) (member : q ∈ t) :
    family.card = 2 * (family.filter (q ∉ ·)).card := by
  have paired : (family.filter (q ∈ ·)).card = (family.filter (q ∉ ·)).card := by
    refine Finset.card_nbij' (· ∆ t) (· ∆ t) (fun u found => ?_) (fun u found => ?_)
      (fun u _ => symmDiff_symmDiff_cancel_right t u) fun u _ => symmDiff_symmDiff_cancel_right t u
    · obtain ⟨within, has⟩ := Finset.mem_filter.mp found
      refine Finset.mem_filter.mpr ⟨closed.symmDiff u within t inside, ?_⟩
      simp [Finset.mem_symmDiff, has, member]
    · obtain ⟨within, lacks⟩ := Finset.mem_filter.mp found
      refine Finset.mem_filter.mpr ⟨closed.symmDiff u within t inside, ?_⟩
      simp [Finset.mem_symmDiff, lacks, member]
  have split := Finset.card_filter_add_card_filter_not (s := family) (q ∈ ·)
  omega

theorem card_eq_two_pow {s : Finset W} (within : family ⊆ s.powerset) :
    ∃ k ≤ s.card, family.card = 2 ^ k := by
  induction s using Finset.induction generalizing family with
  | empty =>
      refine ⟨0, le_rfl, Finset.card_eq_one.mpr ⟨∅, ?_⟩⟩
      exact Finset.eq_singleton_iff_unique_mem.mpr ⟨closed.empty, fun t inside =>
        Finset.subset_empty.mp (Finset.mem_powerset.mp (within inside))⟩
  | insert q s absent ih =>
      have smaller : family.filter (q ∉ ·) ⊆ s.powerset := by
        intro t found
        obtain ⟨inside, lacks⟩ := Finset.mem_filter.mp found
        exact Finset.mem_powerset.mpr
          ((Finset.subset_insert_iff_of_notMem lacks).mp (Finset.mem_powerset.mp (within inside)))
      obtain ⟨k, few, card⟩ := ih (closed.avoiding q) smaller
      rw [Finset.card_insert_of_notMem absent]
      by_cases used : ∃ t ∈ family, q ∈ t
      · obtain ⟨t, inside, member⟩ := used
        exact ⟨k + 1, Nat.succ_le_succ few, by rw [closed.card_avoiding inside member, card, pow_succ']⟩
      · have same : family.filter (q ∉ ·) = family :=
          Finset.filter_true_of_mem fun t inside member => used ⟨t, inside, member⟩
        exact ⟨k, Nat.le_succ_of_le few, same ▸ card⟩

/-- Signs that multiply along symmetric differences cancel unless they are all plus. -/
theorem sum_signs (sign : Finset W → Bool)
    (multiply : ∀ t ∈ family, ∀ u ∈ family, sign (t ∆ u) = (sign t ^^ sign u)) :
    ∑ t ∈ family, signOf (sign t) =
      if ∀ t ∈ family, sign t = false then (family.card : ℂ) else 0 := by
  split
  · rename_i plus
    rw [Finset.sum_congr rfl fun t inside => congrArg signOf (plus t inside), signOf_false,
      Finset.sum_const, nsmul_one]
  · rename_i mixed
    push Not at mixed
    obtain ⟨t, inside, other⟩ := mixed
    have minus : sign t = true := Bool.eq_true_of_not_eq_false other
    refine Finset.sum_involution (fun u _ => u ∆ t) (fun u found => ?_) (fun u found _ same => ?_)
      (fun u found => closed.symmDiff u found t inside)
      fun u _ => symmDiff_symmDiff_cancel_right t u
    · rw [multiply u found t inside, minus, Bool.xor_true, signOf_not, add_neg_cancel]
    · have opposite := multiply u found t inside
      rw [same, minus, Bool.xor_true] at opposite
      exact Bool.not_ne_self _ opposite.symm

end Closed

/-! ## Outcomes from parities -/

omit [DecidableEq W] in
theorem signOf_parity (w : W → Bool) (t : Finset W) : signOf (parity w t) = ∏ q ∈ t, signOf (w q) := by
  classical
  induction t using Finset.induction with
  | empty => simp
  | insert q t absent ih =>
      have split : insert q t = {q} ∆ t := by
        rw [(Finset.disjoint_singleton_left.mpr absent).symmDiff_eq_sup]
        rfl
      rw [Finset.prod_insert absent, ← ih, split, parity_symmDiff, parity_singleton, signOf_xor]

omit [DecidableEq W] in
theorem sum_differences (u v : W → Bool) (s : Finset W) :
    ∑ t ∈ s.powerset, signOf (parity v t) * signOf (parity u t) =
      if ∀ q ∈ s, u q = v q then (2 : ℂ) ^ s.card else 0 := by
  classical
  have factors : ∑ t ∈ s.powerset, signOf (parity v t) * signOf (parity u t) =
      ∏ q ∈ s, (1 + signOf (v q ^^ u q)) := by
    rw [Finset.prod_one_add]
    exact Finset.sum_congr rfl fun t _ => by rw [← signOf_xor, ← parity_xor, signOf_parity]
  rw [factors]
  split
  · rename_i agree
    rw [← Finset.prod_const]
    refine Finset.prod_congr rfl fun q member => ?_
    rw [agree q member, Bool.xor_self, signOf_false, one_add_one_eq_two]
  · rename_i differ
    push Not at differ
    obtain ⟨q, member, other⟩ := differ
    refine Finset.prod_eq_zero member ?_
    rw [Bool.eq_not_of_ne other]
    cases v q <;> simp

def agrees (s : Finset W) (v u : W → Bool) : Bool := decide (∀ q ∈ s, u q = v q)

namespace Pauli

theorem probability_agrees (s : Finset W) (v : W → Bool) (φ : Superposition (W → Bool)) :
    (2 ^ s.card * probability (agrees s v) φ : ℂ) =
      ∑ t ∈ s.powerset, signOf (parity v t) * overlap φ ((phase t).operator φ) := by
  simp only [probability, agrees, overlap, Finsupp.sum, Complex.ofReal_sum, Finset.mul_sum]
  rw [Finset.sum_comm]
  refine Finset.sum_congr rfl fun u _ => ?_
  have square := Complex.normSq_eq_conj_mul_self (z := φ u)
  calc (2 : ℂ) ^ s.card * (((if decide (∀ q ∈ s, u q = v q) then Complex.normSq (φ u) else 0 : ℝ)) : ℂ)
      = (if ∀ q ∈ s, u q = v q then (2 : ℂ) ^ s.card else 0) * (conj (φ u) * φ u) := by
        by_cases agree : ∀ q ∈ s, u q = v q
        · rw [if_pos agree, if_pos (decide_eq_true agree), square]
        · rw [if_neg agree, if_neg (by simpa using agree), Complex.ofReal_zero, mul_zero, zero_mul]
    _ = ∑ t ∈ s.powerset, signOf (parity v t) * signOf (parity u t) * (conj (φ u) * φ u) := by
        rw [← sum_differences, Finset.sum_mul]
    _ = _ := Finset.sum_congr rfl fun t _ => by rw [phase_apply]; ring

/-! ## Unitary operators -/

/-- The sets of wires whose parity flips nothing at the input. -/
def still (front : Finset W → Pauli W) (s : Finset W) : Finset (Finset W) :=
  s.powerset.filter fun t => (front t).x = ∅

section Joint
variable {U : Operator (W → Bool)} (unitary : Operator.Unitary U) {front : Finset W → Pauli W}
  (passes : ∀ t, (phase t).operator * U = U * (front t).operator)
include unitary passes

theorem front_symmDiff (t u : Finset W) : front (t ∆ u) = front t * front u := by
  refine eq_of_passes unitary one_ne_zero (one_smul ℂ U).symm (passes (t ∆ u)) ?_
  rw [← phase_mul, operator_mul, operator_mul, mul_assoc, passes u, ← mul_assoc, passes t, mul_assoc]

theorem closed_still (s : Finset W) : Closed (still front s) := by
  refine ⟨?_, fun t inside u inside' => ?_⟩
  · have square := congrArg Pauli.x (front_symmDiff unitary passes ∅ ∅)
    rw [symmDiff_self, mul_def, symmDiff_self] at square
    exact Finset.mem_filter.mpr ⟨Finset.empty_mem_powerset s, square⟩
  · obtain ⟨within, fixed⟩ := Finset.mem_filter.mp inside
    obtain ⟨within', fixed'⟩ := Finset.mem_filter.mp inside'
    refine Finset.mem_filter.mpr ⟨?_, ?_⟩
    · exact Finset.mem_powerset.mpr (symmDiff_le_sup.trans
        (sup_le (Finset.mem_powerset.mp within) (Finset.mem_powerset.mp within')))
    · rw [front_symmDiff unitary passes, mul_def, fixed, fixed', symmDiff_self]
      rfl

/-- An outcome occurs if it has all parities that are certain, and all outcomes that occur are equally
likely. -/
theorem probability_joint (s : Finset W) (w v : W → Bool) :
    probability (agrees s v) (U (basis w)) =
      if ∀ t ∈ still front s, parity v t = ((front t).minus ^^ parity w (front t).z) then
        ((still front s).card : ℝ) / 2 ^ s.card
      else 0 := by
  let sign (t : Finset W) : Bool := parity v t ^^ ((front t).minus ^^ parity w (front t).z)
  have multiply : ∀ t ∈ still front s, ∀ u ∈ still front s, sign (t ∆ u) = (sign t ^^ sign u) := by
    intro t inside u inside'
    simp only [sign, front_symmDiff unitary passes, mul_def, (Finset.mem_filter.mp inside').2,
      parity_symmDiff, Finset.notMem_empty, decide_false, parity_false, Bool.xor_false,
      Bool.xor_assoc, Bool.xor_left_comm]
  have signs := (closed_still unitary passes s).sum_signs sign multiply
  have total := probability_agrees s v (U (basis w))
  have means : ∑ t ∈ s.powerset, signOf (parity v t) *
      overlap (U (basis w)) ((phase t).operator (U (basis w))) =
        ∑ t ∈ still front s, signOf (sign t) := by
    rw [still, Finset.sum_filter]
    refine Finset.sum_congr rfl fun t _ => ?_
    rw [mean_of_passes unitary (passes t), mul_ite, mul_zero, ← signOf_xor]
  apply Complex.ofReal_injective
  refine mul_left_cancel₀ (pow_ne_zero s.card (two_ne_zero : (2 : ℂ) ≠ 0)) ?_
  rw [total, means, signs]
  have occurs : (∀ t ∈ still front s, sign t = false) ↔
      ∀ t ∈ still front s, parity v t = ((front t).minus ^^ parity w (front t).z) :=
    forall₂_congr fun t _ => bne_eq_false_iff_eq
  by_cases possible : ∀ t ∈ still front s, sign t = false
  · rw [if_pos possible, if_pos (occurs.mp possible)]
    push_cast
    rw [mul_div_cancel₀]
    exact pow_ne_zero _ two_ne_zero
  · rw [if_neg possible, if_neg (mt occurs.mpr possible), Complex.ofReal_zero, mul_zero]

end Joint
end Pauli

end SovereignPirtm.Library
