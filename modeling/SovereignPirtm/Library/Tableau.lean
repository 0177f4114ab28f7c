import SovereignPirtm.Library.Pauli

/-!
# Operators that agree on Pauli strings

Two unitary operators that take the same Pauli strings to `X` and `Z` on each wire differ by a phase
only. A register may have wires without end, as long as the operators leave all but finitely many
of them alone.
-/

namespace SovereignPirtm.Library
open Operator
open ComplexConjugate

noncomputable section

/-! ## Shifts -/

section Shifts
variable {W : Type*}

/-- Flips the wires of a mask, however many they are. -/
def shift (f : W → Bool) : Operator (W → Bool) := monomial (fun w q => w q ^^ f q) fun _ => 1

theorem shift_basis (f w : W → Bool) : shift f (basis w) = basis fun q => w q ^^ f q := by
  rw [shift, monomial_basis, one_smul]

theorem shift_false (w : W → Bool) : shift w (basis fun _ => false) = basis w := by
  rw [shift_basis]
  exact congrArg basis (funext fun q => Bool.false_xor (w q))

theorem pauliX_mul_shift [DecidableEq W] (q : W) (f : W → Bool) :
    pauliX q * shift (flipBit q f) = shift f := by
  apply ext_basis
  intro w
  rw [Module.End.mul_apply, shift_basis, shift_basis, pauliX_basis]
  refine congrArg basis (funext fun r => ?_)
  by_cases here : r = q
  · subst here
    simp
  · rw [flipBit_of_ne here, flipBit_of_ne here]

theorem monomial_commute_shift {g : (W → Bool) → W → Bool} {phase : (W → Bool) → ℂ} {f : W → Bool}
    (moved : ∀ w, g (fun q => w q ^^ f q) = fun q => g w q ^^ f q)
    (seen : ∀ w, phase (fun q => w q ^^ f q) = phase w) : Commute (shift f) (monomial g phase) := by
  apply ext_basis
  intro w
  rw [Module.End.mul_apply, Module.End.mul_apply, monomial_basis, map_smul, shift_basis, shift_basis,
    monomial_basis, moved, seen]

section Gates
variable {f : W → Bool} {q r : W}

theorem pauliZ_commute_shift (still : f q = false) : Commute (shift f) (pauliZ q) :=
  monomial_commute_shift (fun _ => rfl) fun w => by simp only [still, Bool.xor_false]

variable [DecidableEq W]

theorem pauliX_commute_shift (q : W) (f : W → Bool) : Commute (shift f) (pauliX q) := by
  refine monomial_commute_shift (fun w => funext fun r => ?_) fun _ => rfl
  by_cases here : r = q
  · subst here
    simp
  · rw [flipBit_of_ne here, flipBit_of_ne here]

theorem hadamard_commute_shift (still : f q = false) : Commute (shift f) (hadamard q) := by
  rw [hadamard_eq]
  exact ((pauliX_commute_shift q f).add_right (pauliZ_commute_shift still)).smul_right _

theorem cnot_commute_shift (still : f q = false) : Commute (shift f) (cnot q r) := by
  refine monomial_commute_shift (fun w => ?_) fun _ => rfl
  rw [toggle_eq, toggle_eq, still, Bool.xor_false]
  split
  · funext p
    by_cases here : p = r
    · subst here
      simp
    · rw [flipBit_of_ne here, flipBit_of_ne here]
  · rfl

theorem exchange_commute_shift (still : f q = false) (still' : f r = false) :
    Commute (shift f) (exchange q r) := by
  have same (p : W) : f (Equiv.swap q r p) = f p := by
    rw [Equiv.swap_apply_def]
    split_ifs with first second
    · rw [first, still, still']
    · rw [second, still, still']
    · rfl
  exact monomial_commute_shift (fun w => funext fun p => congrArg (w (Equiv.swap q r p) ^^ ·) (same p))
    fun _ => rfl

end Gates

/-- What an operator that neither reads nor writes the wires outside a set commutes with. -/
structure Within (s : Finset W) (U : Operator (W → Bool)) : Prop where
  shifts : ∀ f, (∀ q ∈ s, f q = false) → Commute (shift f) U
  phases : ∀ q ∉ s, Commute (pauliZ q) U

end Shifts

/-! ## What passes an operator -/

section Passing
variable {β : Type*} {G P U V V' : Operator β}

/-- What turns into `P` in front of an operator is what `P` turns into in front of its inverse. -/
theorem passes_inverse (left : V' * V = 1) (right : V * V' = 1) (passes : G * V = V * P) :
    P * V' = V' * G := by
  calc P * V' = V' * V * P * V' := by rw [left, one_mul]
    _ = V' * (G * V) * V' := by rw [mul_assoc V', passes]
    _ = V' * G := by rw [mul_assoc, mul_assoc G, right, mul_one]

theorem commute_of_passes (left : V' * V = 1) (right : V * V' = 1) (first : G * U = U * P)
    (second : G * V = V * P) : Commute G (U * V') := by
  calc G * (U * V') = U * (P * V') := by rw [← mul_assoc, first, mul_assoc]
    _ = U * V' * G := by rw [passes_inverse left right second, mul_assoc]

theorem unit_of_eq_smul (unitary : Unitary U) (unitary' : Unitary V) {z : ℂ} (same : U = z • V)
    (x : β) : conj z * z = 1 := by
  have scaled := unitary.norm_basis x
  rwa [same, LinearMap.smul_apply, overlap_smul_left, overlap_smul_right, unitary'.norm_basis,
    mul_one] at scaled

end Passing

/-! ## Operators on some of the wires -/

namespace Within
section Products
variable {W : Type*} {s : Finset W} {U V : Operator (W → Bool)}

theorem one : Within s (1 : Operator (W → Bool)) :=
  ⟨fun _ _ => Commute.one_right _, fun _ _ => Commute.one_right _⟩

theorem mul (first : Within s U) (second : Within s V) : Within s (U * V) :=
  ⟨fun f still => (first.shifts f still).mul_right (second.shifts f still),
    fun q outside => (first.phases q outside).mul_right (second.phases q outside)⟩

theorem inverse (left : V * U = 1) (right : U * V = 1) (within : Within s U) : Within s V :=
  ⟨fun f still => passes_inverse left right (within.shifts f still),
    fun q outside => passes_inverse left right (within.phases q outside)⟩

end Products

/-! ## Scalars -/

variable {W : Type*} [DecidableEq W] {s : Finset W} {U : Operator (W → Bool)}

/-- An operator that commutes with `X` and `Z` on a wire leaves it alone. -/
theorem drop {q : W} (within : Within (insert q s) U) (flips : Commute (pauliX q) U)
    (phases : Commute (pauliZ q) U) : Within s U := by
  refine ⟨fun f still => ?_, fun r outside => ?_⟩
  · cases bit : f q with
    | false =>
        refine within.shifts f fun r member => ?_
        rcases Finset.mem_insert.mp member with rfl | member
        · exact bit
        · exact still r member
    | true =>
        rw [← pauliX_mul_shift q f]
        refine flips.mul_left (within.shifts _ fun r member => ?_)
        by_cases here : r = q
        · subst here
          rw [flipBit_self, bit, Bool.not_true]
        · rw [flipBit_of_ne here]
          exact still r ((Finset.mem_insert.mp member).resolve_left here)
  · by_cases here : r = q
    · exact here ▸ phases
    · exact within.phases r fun member => outside ((Finset.mem_insert.mp member).resolve_left here)

theorem drop_all (within : Within s U) (flips : ∀ q ∈ s, Commute (pauliX q) U)
    (phases : ∀ q ∈ s, Commute (pauliZ q) U) : Within ∅ U := by
  induction s using Finset.induction with
  | empty => exact within
  | insert q s absent ih =>
      rw [Finset.forall_mem_insert] at flips phases
      exact ih (within.drop flips.1 phases.1) flips.2 phases.2

theorem basis_apply_eq_zero (within : Within ∅ U) {w v : W → Bool} (other : v ≠ w) :
    U (basis w) v = 0 := by
  obtain ⟨q, differs⟩ := Function.ne_iff.mp other
  have phased := LinearMap.congr_fun (within.phases q (Finset.notMem_empty q)).eq (basis w)
  rw [Module.End.mul_apply, Module.End.mul_apply, pauliZ_basis, map_smul, ← Pauli.operator_phase]
    at phased
  have entry := DFunLike.congr_fun phased v
  rw [Pauli.phase_apply, parity_singleton, Finsupp.smul_apply, smul_eq_mul] at entry
  by_contra nonzero
  exact differs (signOf_injective (mul_right_cancel₀ nonzero entry))

/-- `Z` on every wire makes the operator diagonal, and the shifts make the diagonal constant. -/
theorem eq_smul_one (within : Within ∅ U) : ∃ z : ℂ, U = z • 1 := by
  have diagonal : U (basis fun _ => false) =
      U (basis fun _ => false) (fun _ => false) • basis fun _ => false := by
    classical
    ext v
    rw [Finsupp.smul_apply, basis_apply, smul_eq_mul]
    by_cases here : (fun _ => false) = v
    · rw [if_pos here, mul_one, here]
    · rw [if_neg here, mul_zero, within.basis_apply_eq_zero (Ne.symm here)]
  refine ⟨U (basis fun _ => false) fun _ => false, ext_basis fun w => ?_⟩
  have shifted := within.shifts w fun q member => absurd member (Finset.notMem_empty q)
  calc U (basis w) = (U * shift w) (basis fun _ => false) := by
        rw [Module.End.mul_apply, shift_false]
    _ = shift w (U (basis fun _ => false)) := by rw [← shifted.eq, Module.End.mul_apply]
    _ = _ := congrArg (shift w) diagonal
    _ = _ := by rw [map_smul, shift_false]; rfl

end Within

/-! ## Pauli strings in front and behind -/

section Strings
variable {W : Type*} [DecidableEq W] {s : Finset W} {U V : Operator (W → Bool)}

theorem eq_smul_of_passes (within : Within s U) (within' : Within s V) (unitary : Unitary V)
    (flips : ∀ q ∈ s, ∃ P, pauliX q * U = U * P ∧ pauliX q * V = V * P)
    (phases : ∀ q ∈ s, ∃ P, pauliZ q * U = U * P ∧ pauliZ q * V = V * P) : ∃ z : ℂ, U = z • V := by
  obtain ⟨V', -, left, right⟩ := unitary
  have quotient : Within s (U * V') := within.mul (within'.inverse left right)
  have nowhere : Within ∅ (U * V') := by
    refine quotient.drop_all (fun q member => ?_) (fun q member => ?_)
    · obtain ⟨P, first, second⟩ := flips q member
      exact commute_of_passes left right first second
    · obtain ⟨P, first, second⟩ := phases q member
      exact commute_of_passes left right first second
  obtain ⟨z, scalar⟩ := nowhere.eq_smul_one
  refine ⟨z, ?_⟩
  calc U = U * V' * V := by rw [mul_assoc, left, mul_one]
    _ = z • V := by rw [scalar, smul_mul_assoc, one_mul]

/-- What differs by a phase has the same string in front for every string behind. -/
theorem Pauli.eq_of_passes (unitary : Unitary V) {z : ℂ} (nonzero : z ≠ 0) (same : U = z • V)
    {G : Operator (W → Bool)} {P Q : Pauli W} (first : G * U = U * P.operator)
    (second : G * V = V * Q.operator) : P = Q := by
  rw [same, mul_smul_comm, smul_mul_assoc, second] at first
  have passed : V * Q.operator = V * P.operator := smul_right_injective _ nonzero first
  obtain ⟨V', -, left, -⟩ := unitary
  apply Pauli.operator_injective
  calc P.operator = V' * (V * P.operator) := by rw [← mul_assoc, left, one_mul]
    _ = Q.operator := by rw [← passed, ← mul_assoc, left, one_mul]

end Strings
end
end SovereignPirtm.Library
