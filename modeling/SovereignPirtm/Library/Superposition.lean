import Mathlib.Analysis.SpecialFunctions.Complex.Circle
import Mathlib.LinearAlgebra.Finsupp.LinearCombination
import Mathlib.Tactic

/-!
# Superpositions

The states of a register as finite linear combinations of its basis states, and linear operators on
them. An operator is determined by what it does to the basis; it is monomial when it takes every
basis state to a multiple of one.
-/

namespace SovereignPirtm.Library
open ComplexConjugate

noncomputable section

abbrev Superposition (β : Type*) := β →₀ ℂ

abbrev Operator (β : Type*) := Module.End ℂ (Superposition β)

variable {β : Type*}

def basis (x : β) : Superposition β := Finsupp.single x 1

theorem basis_apply [DecidableEq β] (x y : β) : basis x y = if x = y then 1 else 0 :=
  Finsupp.single_apply

theorem basis_injective : Function.Injective (basis : β → Superposition β) :=
  Finsupp.single_left_injective one_ne_zero

theorem single_eq_smul_basis (x : β) (a : ℂ) : Finsupp.single x a = a • basis x :=
  (Finsupp.smul_single_one x a).symm

namespace Operator

theorem ext_basis {U V : Operator β} (same : ∀ x, U (basis x) = V (basis x)) : U = V := by
  apply Finsupp.lhom_ext
  intro x a
  rw [single_eq_smul_basis, map_smul, map_smul, same]

/-! ## Monomial operators -/

def monomial (f : β → β) (phase : β → ℂ) : Operator β :=
  Finsupp.linearCombination ℂ fun x => phase x • basis (f x)

@[simp] theorem monomial_basis (f : β → β) (phase : β → ℂ) (x : β) :
    monomial f phase (basis x) = phase x • basis (f x) := by
  rw [monomial, basis, Finsupp.linearCombination_single, one_smul]

theorem monomial_mul (f g : β → β) (p q : β → ℂ) :
    monomial g q * monomial f p = monomial (g ∘ f) fun x => p x * q (f x) := by
  apply ext_basis
  intro x
  rw [Module.End.mul_apply, monomial_basis, map_smul, monomial_basis, monomial_basis, smul_smul]
  rfl

theorem monomial_one : (monomial id fun _ => 1 : Operator β) = 1 := by
  apply ext_basis
  intro x
  rw [monomial_basis, one_smul]
  rfl

theorem monomial_inverse {f g : β → β} {p q : β → ℂ} (back : ∀ x, g (f x) = x)
    (cancels : ∀ x, p x * q (f x) = 1) : monomial g q * monomial f p = 1 := by
  rw [monomial_mul, funext cancels, show g ∘ f = id from funext back, monomial_one]

end Operator

/-! ## The inner product -/

def overlap (φ ψ : Superposition β) : ℂ := φ.sum fun x a => conj a * ψ x

theorem overlap_add_left (φ φ' ψ : Superposition β) :
    overlap (φ + φ') ψ = overlap φ ψ + overlap φ' ψ := by
  classical
  apply Finsupp.sum_add_index'
  · simp
  · intro x a b
    rw [map_add, add_mul]

theorem overlap_smul_left (a : ℂ) (φ ψ : Superposition β) :
    overlap (a • φ) ψ = conj a * overlap φ ψ := by
  rw [overlap, Finsupp.sum_smul_index (by simp), overlap, Finsupp.mul_sum]
  simp only [map_mul, mul_assoc]

theorem overlap_add_right (φ ψ ψ' : Superposition β) :
    overlap φ (ψ + ψ') = overlap φ ψ + overlap φ ψ' := by
  simp only [overlap, Finsupp.add_apply, mul_add, Finsupp.sum_add]

theorem overlap_smul_right (a : ℂ) (φ ψ : Superposition β) :
    overlap φ (a • ψ) = a * overlap φ ψ := by
  rw [overlap, overlap, Finsupp.mul_sum]
  simp only [Finsupp.smul_apply, smul_eq_mul, mul_left_comm]

theorem overlap_basis_left (x : β) (ψ : Superposition β) : overlap (basis x) ψ = ψ x := by
  rw [overlap, basis, Finsupp.sum_single_index (by simp)]
  simp

theorem overlap_basis_right (φ : Superposition β) (y : β) : overlap φ (basis y) = conj (φ y) := by
  classical
  rw [overlap, Finsupp.sum]
  simp only [basis_apply, mul_ite, mul_one, mul_zero, Finset.sum_ite_eq, Finsupp.mem_support_iff]
  split
  · rfl
  · rename_i absent
    simp [not_not.mp absent]

/-- What a measurement of the state finds with what weight. -/
def probability (event : β → Bool) (φ : Superposition β) : ℝ :=
  φ.sum fun x a => if event x then Complex.normSq a else 0

namespace Operator

/-- The operators that turn into each other between the sides of the inner product. -/
def Adjoint (U V : Operator β) : Prop := ∀ φ ψ, overlap (U φ) ψ = overlap φ (V ψ)

theorem adjoint_of_entries {U V : Operator β}
    (entries : ∀ x y, conj (U (basis x) y) = V (basis y) x) : Adjoint U V := by
  intro φ ψ
  induction φ using Finsupp.induction_linear with
  | zero => simp [overlap]
  | add φ φ' ih ih' => rw [map_add, overlap_add_left, overlap_add_left, ih, ih']
  | single x a =>
      rw [single_eq_smul_basis, map_smul, overlap_smul_left, overlap_smul_left]
      congr 1
      induction ψ using Finsupp.induction_linear with
      | zero => simp [overlap]
      | add ψ ψ' ih ih' => rw [map_add, overlap_add_right, overlap_add_right, ih, ih']
      | single y b =>
          rw [single_eq_smul_basis, map_smul, overlap_smul_right, overlap_smul_right, overlap_basis_right,
            overlap_basis_left, entries]

/-! ## Unitary operators -/

def Unitary (U : Operator β) : Prop := ∃ V, Adjoint U V ∧ V * U = 1 ∧ U * V = 1

namespace Unitary
variable {U V : Operator β}

theorem one : Unitary (1 : Operator β) := ⟨1, fun _ _ => rfl, mul_one 1, mul_one 1⟩

theorem mul (first : Unitary U) (second : Unitary V) : Unitary (V * U) := by
  obtain ⟨U', adjoint, left, right⟩ := first
  obtain ⟨V', adjoint', left', right'⟩ := second
  refine ⟨U' * V', ?_, ?_, ?_⟩
  · intro φ ψ
    rw [Module.End.mul_apply, Module.End.mul_apply, adjoint', adjoint]
  · rw [mul_assoc, ← mul_assoc V', left', one_mul, left]
  · rw [mul_assoc, ← mul_assoc U, right, one_mul, right']

theorem of_involution (adjoint : Adjoint U U) (square : U * U = 1) : Unitary U :=
  ⟨U, adjoint, square, square⟩

theorem overlap_eq (unitary : Unitary U) (φ ψ : Superposition β) :
    overlap (U φ) (U ψ) = overlap φ ψ := by
  obtain ⟨V, adjoint, left, -⟩ := unitary
  rw [adjoint, ← Module.End.mul_apply, left, Module.End.one_apply]

theorem norm_basis (unitary : Unitary U) (x : β) : overlap (U (basis x)) (U (basis x)) = 1 := by
  classical
  rw [unitary.overlap_eq, overlap_basis_left, basis_apply, if_pos rfl]

theorem injective (unitary : Unitary U) : Function.Injective U := by
  obtain ⟨V, -, left, -⟩ := unitary
  apply Function.LeftInverse.injective (g := V)
  intro φ
  rw [← Module.End.mul_apply, left, Module.End.one_apply]

theorem inverse (unitary : Unitary U) : ∃ V, Unitary V ∧ V * U = 1 ∧ U * V = 1 := by
  obtain ⟨V, adjoint, left, right⟩ := unitary
  refine ⟨V, ⟨U, ?_, right, left⟩, left, right⟩
  intro φ ψ
  have kept := adjoint (V φ) (U ψ)
  rw [← Module.End.mul_apply, right, ← Module.End.mul_apply V, left] at kept
  exact kept.symm

theorem mul_iff (first : Unitary U) : Unitary (V * U) ↔ Unitary V := by
  constructor
  · intro both
    obtain ⟨U', undo, -, right⟩ := first.inverse
    have undone := undo.mul both
    rwa [mul_assoc, right, mul_one] at undone
  · exact fun second => first.mul second

end Unitary

theorem unitary_monomial {f g : β → β} {phase : β → ℂ} (back : ∀ x, g (f x) = x)
    (forth : ∀ x, f (g x) = x) (unit : ∀ x, conj (phase x) * phase x = 1) :
    Unitary (monomial f phase) := by
  classical
  have unit' (x : β) : phase x * conj (phase x) = 1 := (mul_comm _ _).trans (unit x)
  refine ⟨monomial g fun y => conj (phase (g y)), ?_, ?_, ?_⟩
  · apply adjoint_of_entries
    intro x y
    have same : f x = y ↔ g y = x :=
      ⟨fun same => same ▸ back x, fun same => same ▸ forth y⟩
    rw [monomial_basis, monomial_basis, Finsupp.smul_apply, Finsupp.smul_apply, basis_apply,
      basis_apply, smul_eq_mul, smul_eq_mul, if_congr same rfl rfl]
    split
    · rename_i found
      rw [found, mul_one, mul_one]
    · rw [mul_zero, mul_zero, map_zero]
  · exact monomial_inverse back fun x => by rw [back, unit']
  · exact monomial_inverse forth fun y => unit (g y)

end Operator
end
end SovereignPirtm.Library
