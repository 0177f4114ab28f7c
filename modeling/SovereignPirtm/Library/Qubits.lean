import SovereignPirtm.Library.Superposition

/-!
# Operators on qubits

Registers of wires, each of which holds a bit: the usual operators on one and two wires, and how they
compose. All of them but the Hadamard operator are monomial, and that one is a combination of two.
-/

namespace SovereignPirtm.Library
open ComplexConjugate

noncomputable section

/-! ## Signs -/

def signOf (minus : Bool) : ℂ := if minus then -1 else 1

@[simp] theorem signOf_false : signOf false = 1 := rfl

@[simp] theorem signOf_true : signOf true = -1 := rfl

theorem signOf_xor (a b : Bool) : signOf (a ^^ b) = signOf a * signOf b := by
  cases a <;> cases b <;> simp

theorem signOf_not (a : Bool) : signOf (!a) = -signOf a := by
  cases a <;> simp

@[simp] theorem signOf_mul_self (a : Bool) : signOf a * signOf a = 1 := by
  cases a <;> simp

@[simp] theorem conj_signOf (a : Bool) : conj (signOf a) = signOf a := by
  cases a <;> simp

theorem unit_I_mul_signOf (a : Bool) :
    conj (Complex.I * signOf a) * (Complex.I * signOf a) = 1 := by
  have square : signOf a * signOf a = 1 := signOf_mul_self a
  rw [map_mul, Complex.conj_I, conj_signOf]
  linear_combination -(signOf a * signOf a) * Complex.I_mul_I + square

theorem signOf_injective : Function.Injective signOf := by
  intro a b same
  have opposite : (1 : ℂ) ≠ -1 := by norm_num
  cases a <;> cases b <;> simp_all [opposite.symm]

theorem signOf_smul_basis_inj {β : Type*} {a b : Bool} {x y : β}
    (same : signOf a • basis x = signOf b • basis y) : a = b ∧ x = y := by
  have nonzero : signOf a ≠ 0 := left_ne_zero_of_mul_eq_one (signOf_mul_self a)
  rw [← single_eq_smul_basis, ← single_eq_smul_basis, Finsupp.single_eq_single_iff] at same
  obtain ⟨state, sign⟩ := same.resolve_right fun zero => nonzero zero.1
  exact ⟨signOf_injective sign, state⟩

variable {W : Type*}

/-! ## Diagonal operators -/

namespace Operator

def phaseGate (z : ℂ) (q : W) : Operator (W → Bool) := monomial id fun w => if w q then z else 1

def pauliZ (q : W) : Operator (W → Bool) := monomial id fun w => signOf (w q)

def cz (control target : W) : Operator (W → Bool) :=
  monomial id fun w => signOf (w control && w target)

@[simp] theorem pauliZ_basis (q : W) (w : W → Bool) :
    pauliZ q (basis w) = signOf (w q) • basis w := monomial_basis _ _ _

@[simp] theorem cz_basis (control target : W) (w : W → Bool) :
    cz control target (basis w) = signOf (w control && w target) • basis w := monomial_basis _ _ _

theorem unitary_phaseGate {z : ℂ} (unit : conj z * z = 1) (q : W) : Unitary (phaseGate z q) := by
  apply unitary_monomial (fun _ => rfl) (fun _ => rfl)
  intro w
  split
  · exact unit
  · simp

theorem unitary_pauliZ (q : W) : Unitary (pauliZ q) :=
  unitary_monomial (fun _ => rfl) (fun _ => rfl) fun _ => by simp

theorem unitary_cz (control target : W) : Unitary (cz control target) :=
  unitary_monomial (fun _ => rfl) (fun _ => rfl) fun _ => by simp

end Operator

/-! ## Bits -/

variable [DecidableEq W]

def flipBit (q : W) (w : W → Bool) : W → Bool := Function.update w q (!w q)

@[simp] theorem flipBit_self (q : W) (w : W → Bool) : flipBit q w q = !w q := Function.update_self ..

@[simp] theorem flipBit_of_ne {q r : W} (other : r ≠ q) (w : W → Bool) : flipBit q w r = w r :=
  Function.update_of_ne other ..

@[simp] theorem flipBit_flipBit (q : W) (w : W → Bool) : flipBit q (flipBit q w) = w := by
  simp [flipBit]

theorem flipBit_ne (q : W) (w : W → Bool) : flipBit q w ≠ w := by
  intro same
  have bit := congrFun same q
  simp at bit

theorem flipBit_comm (q r : W) (w : W → Bool) : flipBit q (flipBit r w) = flipBit r (flipBit q w) := by
  by_cases same : q = r
  · rw [same]
  · unfold flipBit
    rw [Function.update_of_ne same, Function.update_of_ne (Ne.symm same), Function.update_comm same]

def toggle (control target : W) (w : W → Bool) : W → Bool :=
  Function.update w target (w target ^^ w control)

theorem toggle_eq (control target : W) (w : W → Bool) :
    toggle control target w = if w control then flipBit target w else w := by
  unfold toggle flipBit
  cases w control <;> simp

theorem toggle_toggle {control target : W} (apart : control ≠ target) (w : W → Bool) :
    toggle control target (toggle control target w) = w := by
  simp [toggle, Function.update_of_ne apart]

theorem toggle_self (q : W) (w : W → Bool) : toggle q q w = Function.update w q false := by
  simp [toggle]

/-! ## Operators on one wire -/

namespace Operator

def pauliX (q : W) : Operator (W → Bool) := monomial (flipBit q) fun _ => 1

def pauliY (q : W) : Operator (W → Bool) := monomial (flipBit q) fun w => Complex.I * signOf (w q)

def hadamard (q : W) : Operator (W → Bool) := (√(2 : ℕ) : ℂ)⁻¹ • (pauliX q + pauliZ q)

@[simp] theorem pauliX_basis (q : W) (w : W → Bool) : pauliX q (basis w) = basis (flipBit q w) := by
  rw [pauliX, monomial_basis, one_smul]

theorem pauliX_mul_self (q : W) : pauliX q * pauliX q = 1 :=
  monomial_inverse (flipBit_flipBit q) fun _ => one_mul 1

theorem pauliX_commute (q r : W) : Commute (pauliX q) (pauliX r) := by
  apply ext_basis
  intro w
  rw [Module.End.mul_apply, Module.End.mul_apply, pauliX_basis, pauliX_basis, pauliX_basis,
    pauliX_basis, flipBit_comm]

theorem unitary_pauliX (q : W) : Unitary (pauliX q) :=
  unitary_monomial (flipBit_flipBit q) (flipBit_flipBit q) fun _ => by simp

theorem unitary_pauliY (q : W) : Unitary (pauliY q) :=
  unitary_monomial (flipBit_flipBit q) (flipBit_flipBit q) fun w => unit_I_mul_signOf (w q)

/-! ## The Hadamard operator -/

theorem half_square : (√2 : ℂ)⁻¹ * (√2 : ℂ)⁻¹ = 2⁻¹ := by
  rw [← mul_inv, ← Complex.ofReal_mul, Real.mul_self_sqrt (by norm_num)]
  norm_num

theorem hadamard_eq (q : W) : hadamard q = (√2 : ℂ)⁻¹ • (pauliX q + pauliZ q) := by
  rw [hadamard, Nat.cast_ofNat]

theorem hadamard_basis (q : W) (w : W → Bool) :
    hadamard q (basis w) = (√2 : ℂ)⁻¹ • (basis (flipBit q w) + signOf (w q) • basis w) := by
  rw [hadamard_eq, LinearMap.smul_apply, LinearMap.add_apply, pauliX_basis, pauliZ_basis]

theorem hadamard_mul_self (q : W) : hadamard q * hadamard q = 1 := by
  apply ext_basis
  intro w
  have collected : (√2 : ℂ)⁻¹ • ((√2 : ℂ)⁻¹ • (basis w + -signOf (w q) • basis (flipBit q w)) +
      signOf (w q) • (√2 : ℂ)⁻¹ • (basis (flipBit q w) + signOf (w q) • basis w)) =
        ((√2 : ℂ)⁻¹ * (√2 : ℂ)⁻¹ * (1 + signOf (w q) * signOf (w q))) • basis w := by
    module
  rw [Module.End.mul_apply, hadamard_basis, map_smul, map_add, map_smul, hadamard_basis,
    hadamard_basis, flipBit_flipBit, flipBit_self, signOf_not, collected, half_square, signOf_mul_self]
  norm_num

theorem flipBit_eq_iff {q : W} {x y : W → Bool} : flipBit q x = y ↔ flipBit q y = x := by
  constructor
  · rintro rfl
    exact flipBit_flipBit q x
  · rintro rfl
    exact flipBit_flipBit q y

theorem unitary_hadamard (q : W) : Unitary (hadamard q) := by
  classical
  refine .of_involution (adjoint_of_entries fun x y => ?_) (hadamard_mul_self q)
  rw [hadamard_basis, hadamard_basis]
  simp only [Finsupp.smul_apply, Finsupp.add_apply, basis_apply, smul_eq_mul, map_mul, map_inv₀,
    Complex.conj_ofReal, map_add, conj_signOf, apply_ite conj, map_one, map_zero]
  rw [if_congr flipBit_eq_iff rfl rfl]
  by_cases same : x = y
  · rw [same]
  · rw [if_neg same, if_neg (Ne.symm same), mul_zero, mul_zero]

/-! ## Operators on two wires -/

def cnot (control target : W) : Operator (W → Bool) := monomial (toggle control target) fun _ => 1

def exchange (q r : W) : Operator (W → Bool) := monomial (· ∘ Equiv.swap q r) fun _ => 1

@[simp] theorem cnot_basis (control target : W) (w : W → Bool) :
    cnot control target (basis w) = basis (toggle control target w) := by
  rw [cnot, monomial_basis, one_smul]

@[simp] theorem exchange_basis (q r : W) (w : W → Bool) :
    exchange q r (basis w) = basis (w ∘ Equiv.swap q r) := by
  rw [exchange, monomial_basis, one_smul]

theorem cnot_mul_self {control target : W} (apart : control ≠ target) :
    cnot control target * cnot control target = 1 :=
  monomial_inverse (toggle_toggle apart) fun _ => one_mul 1

theorem unitary_cnot {control target : W} (apart : control ≠ target) :
    Unitary (cnot control target) :=
  unitary_monomial (toggle_toggle apart) (toggle_toggle apart) fun _ => by simp

/-- A wire that controls itself is reset. -/
theorem cnot_not_injective (q : W) : ¬ Function.Injective (cnot q q) := by
  intro injective
  have same : cnot q q (basis (flipBit q fun _ => false)) = cnot q q (basis fun _ => false) := by
    rw [cnot_basis, cnot_basis, toggle_self, toggle_self, flipBit, Function.update_idem]
  exact flipBit_ne q _ (basis_injective (injective same))

theorem swap_swap_comp (q r : W) (w : W → Bool) :
    (w ∘ Equiv.swap q r) ∘ Equiv.swap q r = w := by
  funext i
  simp

theorem unitary_exchange (q r : W) : Unitary (exchange q r) :=
  unitary_monomial (swap_swap_comp q r) (swap_swap_comp q r) fun _ => by simp

theorem exchange_mul_self (q r : W) : exchange q r * exchange q r = 1 :=
  monomial_inverse (swap_swap_comp q r) fun _ => one_mul 1

/-- Between Hadamard operators on the target, the control only changes signs. -/
theorem hadamard_cnot_target {control target : W} (apart : control ≠ target) :
    hadamard target * cnot control target = cz control target * hadamard target := by
  apply ext_basis
  intro w
  rw [Module.End.mul_apply, Module.End.mul_apply, cnot_basis, hadamard_basis, hadamard_basis,
    map_smul, map_add, map_smul, cz_basis, cz_basis, toggle_eq, flipBit_self, flipBit_of_ne apart]
  cases w control with
  | false => simp
  | true => simp [smul_smul, add_comm]

/-- Between Hadamard operators on the control, both wires are treated alike. -/
theorem hadamard_cnot_control {control target : W} (apart : control ≠ target) (w : W → Bool) :
    hadamard control (cnot control target (hadamard control (basis w))) =
      (2⁻¹ : ℂ) • (basis w + basis (flipBit control w) + basis (flipBit target w) -
        basis (flipBit control (flipBit target w))) := by
  have passed : toggle control target (flipBit control w) =
      if w control then flipBit control w else flipBit control (flipBit target w) := by
    rw [toggle_eq, flipBit_self, flipBit_comm]
    cases w control <;> rfl
  have shared (u v : Superposition (W → Bool)) : (√2 : ℂ)⁻¹ • ((√2 : ℂ)⁻¹ • u + (√2 : ℂ)⁻¹ • v) =
      (2⁻¹ : ℂ) • (u + v) := by
    rw [← smul_add, smul_smul, half_square]
  rw [hadamard_basis, map_smul, map_smul, map_add, map_add, map_smul, map_smul, cnot_basis,
    cnot_basis, passed, toggle_eq]
  cases bit : w control with
  | false =>
      simp only [Bool.false_eq_true, if_false, hadamard_basis, flipBit_flipBit, flipBit_self, bit,
        flipBit_of_ne apart, signOf_false, one_smul, Bool.not_false, signOf_true, shared]
      congr 1
      module
  | true =>
      simp only [if_true, hadamard_basis, flipBit_flipBit, flipBit_self, bit, flipBit_of_ne apart,
        signOf_false, one_smul, Bool.not_true, signOf_true]
      rw [smul_comm (-1 : ℂ) (√2 : ℂ)⁻¹, shared]
      congr 1
      module

end Operator
end
end SovereignPirtm.Library
