import SovereignPirtm.Library.Parity
import SovereignPirtm.Library.Qubits

/-!
# Pauli strings

Products of `X` and `Z` operators with a sign, as data: which wires are flipped, and which ones give
their bit to the sign. The operators that permute Pauli strings among each other act on that data.
-/

namespace SovereignPirtm.Library
open scoped symmDiff
variable {W : Type*} [DecidableEq W]

def flipAll (s : Finset W) (w : W → Bool) : W → Bool := fun q => w q ^^ decide (q ∈ s)

theorem parity_flipAll (s t : Finset W) (w : W → Bool) :
    parity (flipAll s w) t = (parity w t ^^ parity (fun q => decide (q ∈ s)) t) :=
  parity_xor ..

theorem flipAll_symmDiff (s t : Finset W) (w : W → Bool) :
    flipAll (s ∆ t) w = flipAll s (flipAll t w) := by
  funext q
  by_cases left : q ∈ s <;> by_cases right : q ∈ t <;> simp [flipAll, Finset.mem_symmDiff, left, right]

@[simp] theorem flipAll_empty (w : W → Bool) : flipAll ∅ w = w := by
  funext q
  simp [flipAll]

theorem flipAll_eq_self_iff {s : Finset W} {w : W → Bool} : flipAll s w = w ↔ s = ∅ := by
  constructor
  · intro same
    refine Finset.eq_empty_of_forall_notMem fun q member => ?_
    have bit := congrFun same q
    simp [flipAll, member] at bit
  · rintro rfl
    exact flipAll_empty w

theorem flipAll_singleton (q : W) (w : W → Bool) : flipAll {q} w = flipBit q w := by
  funext r
  by_cases here : r = q
  · simp [flipAll, here]
  · simp [flipAll, here]

theorem flipAll_flipBit (s : Finset W) (q : W) (w : W → Bool) :
    flipAll s (flipBit q w) = flipBit q (flipAll s w) := by
  rw [← flipAll_singleton, ← flipAll_singleton, ← flipAll_symmDiff, ← flipAll_symmDiff,
    symmDiff_comm]

/-- First the signs of the wires in `z`, then the flips of the wires in `x`. -/
@[ext] structure Pauli (W : Type*) where
  minus : Bool
  x : Finset W
  z : Finset W

namespace Pauli

instance : DecidableEq (Pauli W) := fun P Q =>
  decidable_of_iff (P.minus = Q.minus ∧ P.x = Q.x ∧ P.z = Q.z) Pauli.ext_iff.symm

instance : Mul (Pauli W) where
  mul P Q := ⟨(P.minus ^^ Q.minus) ^^ parity (fun q => decide (q ∈ Q.x)) P.z, P.x ∆ Q.x, P.z ∆ Q.z⟩

theorem mul_def (P Q : Pauli W) : P * Q =
    ⟨(P.minus ^^ Q.minus) ^^ parity (fun q => decide (q ∈ Q.x)) P.z, P.x ∆ Q.x, P.z ∆ Q.z⟩ := rfl

def single (q : W) : Pauli W := ⟨false, {q}, ∅⟩

def phase (s : Finset W) : Pauli W := ⟨false, ∅, s⟩

theorem phase_mul (s t : Finset W) : phase s * phase t = phase (s ∆ t) := by
  simp [mul_def, phase]

def negateIf (minus : Bool) (P : Pauli W) : Pauli W := { P with minus := P.minus ^^ minus }

noncomputable def operator (P : Pauli W) : Operator (W → Bool) :=
  Operator.monomial (flipAll P.x) fun w => signOf (P.minus ^^ parity w P.z)

theorem operator_basis (P : Pauli W) (w : W → Bool) :
    P.operator (basis w) = signOf (P.minus ^^ parity w P.z) • basis (flipAll P.x w) :=
  Operator.monomial_basis ..

theorem operator_injective :
    Function.Injective (operator : Pauli W → Operator (W → Bool)) := by
  intro P Q same
  have acts (w : W → Bool) : (P.minus ^^ parity w P.z) = (Q.minus ^^ parity w Q.z) ∧
      flipAll P.x w = flipAll Q.x w := by
    apply signOf_smul_basis_inj
    rw [← P.operator_basis, ← Q.operator_basis, same]
  have minus : P.minus = Q.minus := by simpa using (acts fun _ => false).1
  ext q
  · exact minus
  · simpa [flipAll] using congrFun (acts fun _ => false).2 q
  · simpa [minus] using (acts fun r => decide (r = q)).1

theorem operator_mul (P Q : Pauli W) : (P * Q).operator = P.operator * Q.operator := by
  apply Operator.ext_basis
  intro w
  rw [Module.End.mul_apply, operator_basis, operator_basis, map_smul, operator_basis, smul_smul,
    mul_def, flipAll_symmDiff, parity_symmDiff, parity_flipAll, ← signOf_xor]
  congr 2
  cases P.minus <;> cases Q.minus <;> cases parity w P.z <;> cases parity w Q.z <;> simp

theorem operator_single (q : W) : (single q).operator = Operator.pauliX q := by
  apply Operator.ext_basis
  intro w
  rw [operator_basis, Operator.pauliX_basis, single, flipAll_singleton, parity_empty, Bool.xor_false,
    signOf_false, one_smul]

theorem operator_phase (q : W) : (phase {q}).operator = Operator.pauliZ q := by
  apply Operator.ext_basis
  intro w
  rw [operator_basis, Operator.pauliZ_basis, phase, flipAll_empty, parity_singleton, Bool.false_xor]

/-! ## Passing a Pauli string -/

def anticommutes (P Q : Pauli W) : Bool :=
  parity (fun q => decide (q ∈ Q.x)) P.z ^^ parity (fun q => decide (q ∈ P.x)) Q.z

theorem mul_comm_negateIf (P Q : Pauli W) : P * Q = Q * P.negateIf (P.anticommutes Q) := by
  rw [mul_def, mul_def, negateIf, symmDiff_comm P.x, symmDiff_comm P.z, anticommutes]
  congr 1
  cases P.minus <;> cases Q.minus <;>
    cases parity (fun q => decide (q ∈ Q.x)) P.z <;> simp

theorem operator_passes (P Q : Pauli W) : P.operator * Q.operator =
    Q.operator * (P.negateIf (P.anticommutes Q)).operator := by
  rw [← operator_mul, ← operator_mul, mul_comm_negateIf]

theorem anticommutes_single (P : Pauli W) (q : W) :
    P.anticommutes (single q) = decide (q ∈ P.z) := by
  simp [anticommutes, single]

theorem anticommutes_phase (P : Pauli W) (q : W) :
    P.anticommutes (phase {q}) = decide (q ∈ P.x) := by
  simp [anticommutes, phase]

theorem pauliX_passes (q : W) (P : Pauli W) : P.operator * Operator.pauliX q =
    Operator.pauliX q * (P.negateIf (decide (q ∈ P.z))).operator := by
  rw [← operator_single, operator_passes, anticommutes_single]

theorem pauliZ_passes (q : W) (P : Pauli W) : P.operator * Operator.pauliZ q =
    Operator.pauliZ q * (P.negateIf (decide (q ∈ P.x))).operator := by
  rw [← operator_phase, operator_passes, anticommutes_phase]

theorem operator_single_phase (q : W) :
    Operator.pauliY q = Complex.I • (single q * phase {q}).operator := by
  apply Operator.ext_basis
  intro w
  rw [operator_mul, operator_single, operator_phase, LinearMap.smul_apply, Module.End.mul_apply,
    Operator.pauliZ_basis, map_smul, Operator.pauliX_basis, smul_smul, Operator.pauliY,
    Operator.monomial_basis]

theorem pauliY_passes (q : W) (P : Pauli W) : P.operator * Operator.pauliY q =
    Operator.pauliY q * (P.negateIf (decide (q ∈ P.z) ^^ decide (q ∈ P.x))).operator := by
  have both : P.anticommutes (single q * phase {q}) = (decide (q ∈ P.z) ^^ decide (q ∈ P.x)) := by
    simp [anticommutes, mul_def, single, phase, Finset.mem_symmDiff]
  rw [operator_single_phase, mul_smul_comm, smul_mul_assoc, operator_passes, both]

/-- On a wire with one of the two operators, that one turns into the other. -/
def hadamard (q : W) (P : Pauli W) : Pauli W :=
  if q ∈ P.x ↔ q ∈ P.z then P.negateIf (decide (q ∈ P.x))
  else { P with x := P.x ∆ {q}, z := P.z ∆ {q} }

def cnot (control target : W) (P : Pauli W) : Pauli W :=
  { P with
    x := if control ∈ P.x then P.x ∆ {target} else P.x
    z := if target ∈ P.z then P.z ∆ {control} else P.z }

def cz (control target : W) (P : Pauli W) : Pauli W :=
  { minus := P.minus ^^ decide (control ∈ P.x ∧ target ∈ P.x)
    x := P.x
    z := (if target ∈ P.x then P.z ∆ {control} else P.z) ∆ if control ∈ P.x then {target} else ∅ }

def exchange (q r : W) (P : Pauli W) : Pauli W :=
  { P with
    x := P.x.map (Equiv.swap q r).toEmbedding
    z := P.z.map (Equiv.swap q r).toEmbedding }

section Mixed
variable {q : W} {P : Pauli W} (mixed : ¬ (q ∈ P.x ↔ q ∈ P.z))
include mixed

theorem mul_single_hadamard :
    P * single q = phase {q} * { P with x := P.x ∆ {q}, z := P.z ∆ {q} } := by
  have swapped : (q ∈ P.x ∆ {q}) ↔ q ∈ P.z := by
    simp only [Finset.mem_symmDiff, Finset.mem_singleton]
    tauto
  ext r
  · simp [mul_def, single, phase, swapped]
  · simp [mul_def, single, phase, Finset.mem_symmDiff]
  · simp only [mul_def, single, phase, Finset.mem_symmDiff, Finset.notMem_empty]
    tauto

theorem mul_phase_hadamard :
    P * phase {q} = single q * { P with x := P.x ∆ {q}, z := P.z ∆ {q} } := by
  ext r
  · simp [mul_def, single, phase, parity]
  · simp only [mul_def, single, phase, Finset.mem_symmDiff, Finset.notMem_empty]
    tauto
  · simp [mul_def, single, phase, Finset.mem_symmDiff]

end Mixed

theorem hadamard_passes (q : W) (P : Pauli W) :
    P.operator * Operator.hadamard q = Operator.hadamard q * (P.hadamard q).operator := by
  rw [Operator.hadamard_eq, mul_smul_comm, smul_mul_assoc, mul_add, add_mul, hadamard,
    ← operator_single, ← operator_phase]
  refine congrArg ((√2 : ℂ)⁻¹ • ·) ?_
  split
  · rename_i same
    rw [operator_passes P (single q), operator_passes P (phase {q}), anticommutes_single,
      anticommutes_phase, decide_eq_decide.mpr same]
  · rename_i other
    rw [← operator_mul, ← operator_mul, ← operator_mul, ← operator_mul, mul_single_hadamard other,
      mul_phase_hadamard other, add_comm]

theorem parity_toggle (control target : W) (w : W → Bool) (s : Finset W) :
    parity (toggle control target w) s = (parity w s ^^ (decide (target ∈ s) && w control)) := by
  rw [toggle_eq]
  split
  · rename_i set
    simp [← flipAll_singleton, parity_flipAll, set]
  · rename_i unset
    rw [Bool.eq_false_of_not_eq_true unset, Bool.and_false, Bool.xor_false]

theorem cnot_passes {control target : W} (apart : control ≠ target) (P : Pauli W) :
    P.operator * Operator.cnot control target =
      Operator.cnot control target * (P.cnot control target).operator := by
  apply Operator.ext_basis
  intro w
  have signs : (P.minus ^^ parity (toggle control target w) P.z) =
      (P.minus ^^ parity w (P.cnot control target).z) := by
    rw [parity_toggle, cnot]
    by_cases inside : target ∈ P.z
    · simp [inside]
    · simp [inside]
  have bits : flipAll P.x (toggle control target w) =
      toggle control target (flipAll (P.cnot control target).x w) := by
    funext q
    by_cases here : q = target
    · subst here
      by_cases set : control ∈ P.x <;> by_cases inside : q ∈ P.x <;>
        simp [flipAll, toggle, cnot, set, inside, apart, Finset.mem_symmDiff]
    · by_cases set : control ∈ P.x
      · simp [flipAll, toggle, cnot, set, here, Finset.mem_symmDiff]
      · simp [flipAll, toggle, cnot, set, here]
  rw [Module.End.mul_apply, Module.End.mul_apply, Operator.cnot_basis, operator_basis,
    operator_basis, map_smul, Operator.cnot_basis, signs, bits]
  rfl

theorem cz_passes (control target : W) (P : Pauli W) :
    P.operator * Operator.cz control target =
      Operator.cz control target * (P.cz control target).operator := by
  apply Operator.ext_basis
  intro w
  have signs : ((w control && w target) ^^ (P.minus ^^ parity w P.z)) =
      ((P.cz control target).minus ^^ parity w (P.cz control target).z ^^
        (flipAll P.x w control && flipAll P.x w target)) := by
    have weigh : ∀ minus rest a b x y : Bool, ((a && b) ^^ (minus ^^ rest)) =
        ((minus ^^ (x && y)) ^^ ((rest ^^ (y && a)) ^^ (x && b)) ^^ ((a ^^ x) && (b ^^ y))) := by
      decide
    rw [weigh _ _ _ _ (decide (control ∈ P.x)) (decide (target ∈ P.x)), cz, parity_symmDiff]
    by_cases left : control ∈ P.x <;> by_cases right : target ∈ P.x <;>
      simp [flipAll, left, right]
  rw [Module.End.mul_apply, Module.End.mul_apply, Operator.cz_basis, map_smul, operator_basis,
    operator_basis, map_smul, Operator.cz_basis, smul_smul, smul_smul, ← signOf_xor, ← signOf_xor]
  exact congrArg (fun minus => signOf minus • basis (flipAll P.x w)) signs

theorem flipAll_exchange (q r : W) (s : Finset W) (w : W → Bool) :
    flipAll s (w ∘ Equiv.swap q r) =
      flipAll (s.map (Equiv.swap q r).toEmbedding) w ∘ Equiv.swap q r := by
  funext i
  simp [flipAll]

theorem exchange_passes (q r : W) (P : Pauli W) :
    P.operator * Operator.exchange q r = Operator.exchange q r * (P.exchange q r).operator := by
  apply Operator.ext_basis
  intro w
  rw [Module.End.mul_apply, Module.End.mul_apply, Operator.exchange_basis, operator_basis,
    operator_basis, map_smul, Operator.exchange_basis, exchange, parity_map, flipAll_exchange]
  rfl

/-! ## Measured parities -/

theorem phase_apply (s : Finset W) (φ : Superposition (W → Bool)) (w : W → Bool) :
    (phase s).operator φ w = signOf (parity w s) * φ w := by
  classical
  induction φ using Finsupp.induction_linear with
  | zero => simp
  | add φ ψ ih ih' => rw [map_add, Finsupp.add_apply, ih, ih', Finsupp.add_apply, mul_add]
  | single v a =>
      rw [single_eq_smul_basis, map_smul, operator_basis, phase, flipAll_empty, Bool.false_xor]
      simp only [Finsupp.smul_apply, basis_apply, smul_eq_mul]
      split
      · rename_i same
        rw [same, mul_left_comm]
      · simp

/-- Twice the probability of an odd parity is what is missing from the mean of its sign. -/
theorem probability_parity (s : Finset W) (φ : Superposition (W → Bool)) :
    (2 * probability (fun w => parity w s) φ : ℂ) =
      overlap φ φ - overlap φ ((phase s).operator φ) := by
  rw [probability, overlap, overlap, Finsupp.sum, Finsupp.sum, Finsupp.sum, ← Finset.sum_sub_distrib,
    Complex.ofReal_sum, Finset.mul_sum]
  refine Finset.sum_congr rfl fun w _ => ?_
  have square := Complex.normSq_eq_conj_mul_self (z := φ w)
  rw [phase_apply]
  cases parity w s with
  | false => simp
  | true =>
      simp only [if_true, signOf_true, square]
      ring

section Means
variable {U : Operator (W → Bool)} (unitary : Operator.Unitary U) {s : Finset W} {P : Pauli W}
  (passes : (phase s).operator * U = U * P.operator)
include unitary passes

theorem mean_of_passes (w : W → Bool) :
    overlap (U (basis w)) ((phase s).operator (U (basis w))) =
      if P.x = ∅ then signOf (P.minus ^^ parity w P.z) else 0 := by
  classical
  rw [← Module.End.mul_apply, passes, Module.End.mul_apply, unitary.overlap_eq,
    overlap_basis_left, operator_basis, Finsupp.smul_apply, basis_apply, smul_eq_mul, mul_ite,
    mul_one, mul_zero, if_congr flipAll_eq_self_iff rfl rfl]

/-- When an observed parity turns into a Pauli string at the input, it is certain if that string
flips nothing, and otherwise a fair coin. -/
theorem probability_of_passes (w : W → Bool) : probability (fun v => parity v s) (U (basis w)) =
    if P.x = ∅ then (if P.minus ^^ parity w P.z then 1 else 0) else 1 / 2 := by
  have odds := probability_parity s (U (basis w))
  rw [unitary.norm_basis, mean_of_passes unitary passes] at odds
  apply Complex.ofReal_injective
  refine mul_left_cancel₀ (two_ne_zero : (2 : ℂ) ≠ 0) (odds.trans ?_)
  split
  · cases P.minus ^^ parity w P.z <;> norm_num
  · norm_num

end Means

end Pauli
end SovereignPirtm.Library
