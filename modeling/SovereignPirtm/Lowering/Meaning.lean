import SovereignPirtm.Library.Qubits
import SovereignPirtm.Lowering.Addition

/-!
# The operator of a circuit

What a list of gates does to the states of its wires. The source names no axis for a rotation, so
what rotations do is a parameter; no lowering emits one.
-/

namespace SovereignPirtm.Lowering
open Library Operator TensorOp
open ComplexConjugate

noncomputable section

def SingleGate.operator : SingleGate → Nat → Operator (Nat → Bool)
  | .pauliX => Operator.pauliX
  | .pauliY => Operator.pauliY
  | .pauliZ => Operator.pauliZ
  | .hadamard => Operator.hadamard
  | .tGate => phaseGate (Complex.exp (Complex.I * (Real.pi / 4)))
  | .sGate => phaseGate Complex.I

def DoubleGate.operator : DoubleGate → Nat → Nat → Operator (Nat → Bool)
  | .cnot => Operator.cnot
  | .cz => Operator.cz
  | .swap => Operator.exchange

variable (rotation : Nat → UInt64 → Operator (Nat → Bool))

def Gate.operator : Gate → Operator (Nat → Bool)
  | .single gate target => gate.operator target.index
  | .double gate control target => gate.operator control.index target.index
  | .rotation target angle => rotation target.index angle

/-- The first gate acts first. -/
def meaning : List Gate → Operator (Nat → Bool)
  | [] => 1
  | g :: gates => meaning gates * g.operator rotation

theorem meaning_append (first second : List Gate) :
    meaning rotation (first ++ second) = meaning rotation second * meaning rotation first := by
  induction first with
  | nil => exact (mul_one _).symm
  | cons g gates ih => rw [List.cons_append, meaning, ih, meaning, mul_assoc]

/-! ## Basis states -/

theorem exp_unit (x : ℝ) : conj (Complex.exp (Complex.I * x)) * Complex.exp (Complex.I * x) = 1 := by
  rw [← Complex.exp_conj, ← Complex.exp_add, map_mul, Complex.conj_I, Complex.conj_ofReal]
  rw [neg_mul, neg_add_cancel, Complex.exp_zero]

theorem quarter_turn :
    conj (Complex.exp (Complex.I * (Real.pi / 4))) * Complex.exp (Complex.I * (Real.pi / 4)) = 1 := by
  have unit := exp_unit (Real.pi / 4)
  push_cast at unit
  exact unit

theorem phaseGate_onBasis {z : ℂ} (unit : conj z * z = 1) (q : Nat) (w : Nat → Bool) :
    ∃ a : ℂ, conj a * a = 1 ∧ phaseGate z q (basis w) = a • basis w := by
  refine ⟨if w q then z else 1, ?_, monomial_basis _ _ _⟩
  split
  · exact unit
  · simp

theorem Gate.onBasis_operator {g : Gate} {w v : Nat → Bool} (moved : g.onBasis w = some v) :
    ∃ a : ℂ, conj a * a = 1 ∧ g.operator rotation (basis w) = a • basis v := by
  have unit (b : Bool) : conj (signOf b) * signOf b = 1 := by simp
  cases g with
  | single gate target =>
      cases gate with
      | hadamard => cases moved
      | pauliX =>
          obtain rfl := Option.some.inj moved
          exact ⟨1, by simp, monomial_basis _ _ _⟩
      | pauliY =>
          obtain rfl := Option.some.inj moved
          exact ⟨_, unit_I_mul_signOf (w target.index), monomial_basis _ _ _⟩
      | pauliZ =>
          obtain rfl := Option.some.inj moved
          exact ⟨signOf (w target.index), unit _, pauliZ_basis _ _⟩
      | tGate =>
          obtain rfl := Option.some.inj moved
          exact phaseGate_onBasis quarter_turn _ _
      | sGate =>
          obtain rfl := Option.some.inj moved
          exact phaseGate_onBasis (by simp) _ _
  | double gate control target =>
      cases gate with
      | cnot =>
          obtain rfl := Option.some.inj moved
          exact ⟨1, by simp, monomial_basis _ _ _⟩
      | cz =>
          obtain rfl := Option.some.inj moved
          exact ⟨_, unit _, cz_basis _ _ _⟩
      | swap =>
          obtain rfl := Option.some.inj moved
          exact ⟨1, by simp, monomial_basis _ _ _⟩
  | rotation target angle => cases moved

/-- The run of the bits is what a measurement of the circuit's outcome sees. -/
theorem run_onBasis_operator {gates : List Gate} {w v : Nat → Bool}
    (ran : run Gate.onBasis w gates = some v) :
    ∃ a : ℂ, conj a * a = 1 ∧ meaning rotation gates (basis w) = a • basis v := by
  induction gates generalizing w with
  | nil =>
      obtain rfl := Option.some.inj ran
      exact ⟨1, by simp, by rw [meaning, one_smul]; rfl⟩
  | cons g gates ih =>
      rw [run_cons] at ran
      obtain ⟨u, moved, later⟩ := Option.bind_eq_some_iff.mp ran
      obtain ⟨a, unit, acts⟩ := g.onBasis_operator rotation moved
      obtain ⟨b, unit', rest⟩ := ih later
      refine ⟨a * b, ?_, ?_⟩
      · rw [map_mul]
        linear_combination unit * (conj b * b) + unit'
      · rw [meaning, Module.End.mul_apply, acts, map_smul, rest, smul_smul]

def copied : List Gate := [.single .pauliX ⟨0⟩, .double .cnot ⟨0⟩ ⟨1⟩]

theorem run_onBasis_operator_copied : ∃ v, run Gate.onBasis (fun _ => false) copied = some v ∧
    v 1 = true ∧ ∃ a : ℂ, conj a * a = 1 ∧
      meaning (fun _ _ => 1) copied (basis fun _ => false) = a • basis v :=
  ⟨_, rfl, rfl, run_onBasis_operator (fun _ _ => 1) rfl⟩

end
end SovereignPirtm.Lowering
