import SovereignPirtm.Library.Pauli
import SovereignPirtm.Lowering.Reversibility

/-!
# Simulating lowered circuits

All gates that a lowering emits take Pauli strings to Pauli strings. So what a lowered circuit puts
out can be computed without its state: an observed parity is followed back to the inputs, gate by
gate.
-/

namespace SovereignPirtm.Lowering
open Library Operator TensorOp

/-- The Pauli string that comes out as `P`. There is none for the gates that turn by less than a
half, nor for a `CNOT` on a single wire. -/
def Gate.pullBack (P : Pauli Nat) : Gate → Option (Pauli Nat)
  | .single .pauliX q => some (P.negateIf (decide (q.index ∈ P.z)))
  | .single .pauliY q => some (P.negateIf (decide (q.index ∈ P.z) ^^ decide (q.index ∈ P.x)))
  | .single .pauliZ q => some (P.negateIf (decide (q.index ∈ P.x)))
  | .single .hadamard q => some (P.hadamard q.index)
  | .single .tGate _ => none
  | .single .sGate _ => none
  | .double .cnot control target =>
      if control = target then none else some (P.cnot control.index target.index)
  | .double .cz control target => some (P.cz control.index target.index)
  | .double .swap control target => some (P.exchange control.index target.index)
  | .rotation _ _ => none

/-- Backwards through the circuit, last gate first. -/
def pullBack (P : Pauli Nat) (gates : List Gate) : Option (Pauli Nat) :=
  run Gate.pullBack P gates.reverse

section Meaning
variable (rotation : Nat → UInt64 → Operator (Nat → Bool))

theorem Gate.pullBack_passes {g : Gate} {P Q : Pauli Nat} (pulled : g.pullBack P = some Q) :
    P.operator * g.operator rotation = g.operator rotation * Q.operator := by
  cases g with
  | single gate q =>
      cases gate with
      | pauliX =>
          obtain rfl := Option.some.inj pulled
          exact Pauli.pauliX_passes q.index P
      | pauliY =>
          obtain rfl := Option.some.inj pulled
          exact Pauli.pauliY_passes q.index P
      | pauliZ =>
          obtain rfl := Option.some.inj pulled
          exact Pauli.pauliZ_passes q.index P
      | hadamard =>
          obtain rfl := Option.some.inj pulled
          exact Pauli.hadamard_passes q.index P
      | tGate => cases pulled
      | sGate => cases pulled
  | double gate control target =>
      cases gate with
      | cnot =>
          obtain ⟨apart, found⟩ := Option.ite_none_left_eq_some.mp pulled
          obtain rfl := Option.some.inj found
          exact Pauli.cnot_passes (fun same => apart (congrArg Qubit.mk same)) P
      | cz =>
          obtain rfl := Option.some.inj pulled
          exact Pauli.cz_passes control.index target.index P
      | swap =>
          obtain rfl := Option.some.inj pulled
          exact Pauli.exchange_passes control.index target.index P
  | rotation q angle => cases pulled

theorem pullBack_passes {gates : List Gate} {P Q : Pauli Nat} (pulled : pullBack P gates = some Q) :
    P.operator * meaning rotation gates = meaning rotation gates * Q.operator := by
  induction gates generalizing Q with
  | nil =>
      obtain rfl := Option.some.inj pulled
      rw [meaning, mul_one, one_mul]
  | cons g gates ih =>
      rw [pullBack, List.reverse_cons] at pulled
      obtain ⟨middle, later, first⟩ := run_concat_iff.mp pulled
      rw [meaning, ← mul_assoc, ih later, mul_assoc, g.pullBack_passes rotation first, mul_assoc]

end Meaning

theorem Gate.pullBack_isSome {g : Gate} (emittable : g.Emittable) (apart : g.Apart)
    (P : Pauli Nat) : ∃ Q, g.pullBack P = some Q := by
  match g, emittable with
  | .single .hadamard q, _ => exact ⟨_, rfl⟩
  | .single .pauliX q, _ => exact ⟨_, rfl⟩
  | .double .cnot control target, _ => exact ⟨_, if_neg apart⟩
  | .double .swap control target, _ => exact ⟨_, rfl⟩

theorem pullBack_isSome {gates : List Gate} (emittable : ∀ g ∈ gates, g.Emittable)
    (apart : ∀ g ∈ gates, g.Apart) (P : Pauli Nat) : ∃ Q, pullBack P gates = some Q := by
  induction gates with
  | nil => exact ⟨P, rfl⟩
  | cons g gates ih =>
      rw [List.forall_mem_cons] at emittable apart
      obtain ⟨middle, later⟩ := ih emittable.2 apart.2
      obtain ⟨Q, first⟩ := g.pullBack_isSome emittable.1 apart.1 middle
      rw [pullBack, List.reverse_cons]
      exact ⟨Q, run_concat_iff.mpr ⟨middle, later, first⟩⟩

/-! ## Lowered circuits -/

section Lowered
variable {p : PirtnProgram} {c : Circuit} (lowered : p.lowerToCircuit = .ok c)
  (unaliased : ∀ op ∈ p.ops, op.Unaliased) (rotation : Nat → UInt64 → Operator (Nat → Bool))
include lowered unaliased

theorem lowered_clifford (P : Pauli Nat) : ∃ Q, pullBack P c.gates = some Q ∧
    P.operator * meaning rotation c.gates = meaning rotation c.gates * Q.operator := by
  have apart := (gates_apart_iff lowered).mpr unaliased
  obtain ⟨Q, pulled⟩ := pullBack_isSome (gates_emittable lowered) apart P
  exact ⟨Q, pulled, pullBack_passes rotation pulled⟩

/-- The parity of any wires at the end is computed from the bits at the start, or is a fair coin. -/
theorem lowered_measured (s : Finset Nat) : ∃ Q, pullBack (.phase s) c.gates = some Q ∧
    ∀ w, probability (fun v => parity v s) (meaning rotation c.gates (basis w)) =
      if Q.x = ∅ then (if Q.minus ^^ parity w Q.z then 1 else 0) else 1 / 2 := by
  have apart := (gates_apart_iff lowered).mpr unaliased
  have unitary := meaning_unitary rotation (gates_emittable lowered) apart
  obtain ⟨Q, pulled⟩ := pullBack_isSome (gates_emittable lowered) apart (.phase s)
  exact ⟨Q, pulled, Pauli.probability_of_passes unitary (pullBack_passes rotation pulled)⟩

end Lowered

theorem lowered_clifford_add : ∃ c,
    PirtnProgram.lowerToCircuit ⟨[.add 0 1 2], 3⟩ = .ok c ∧
      ∀ rotation, (Pauli.phase {2}).operator * meaning rotation c.gates =
        meaning rotation c.gates * (Pauli.phase {0, 1, 2}).operator := by
  refine ⟨_, rfl, fun rotation => ?_⟩
  obtain ⟨Q, pulled, passes⟩ :=
    lowered_clifford (p := ⟨[.add 0 1 2], 3⟩) rfl (by decide) rotation (.phase {2})
  obtain ⟨R, found, sign, flips, phases⟩ : ∃ R,
      pullBack (.phase {2}) [.double .cnot ⟨0⟩ ⟨2⟩, .double .cnot ⟨1⟩ ⟨2⟩] = some R ∧
        R.minus = false ∧ R.x = ∅ ∧ R.z = {0, 1, 2} := ⟨_, rfl, by decide⟩
  rw [Option.some.inj (pulled.symm.trans found)] at passes
  rw [show Pauli.phase {0, 1, 2} = R from Pauli.ext sign.symm flips.symm phases.symm]
  exact passes

/-- Behind a product and a sum, either factor is a fair coin. -/
theorem lowered_measured_fair : ∃ c,
    PirtnProgram.lowerToCircuit ⟨[.matMul 0 1 2, .add 0 1 2], 3⟩ = .ok c ∧
      ∀ rotation w,
        probability (fun v => parity v {0}) (meaning rotation c.gates (basis w)) = 1 / 2 := by
  refine ⟨_, rfl, fun rotation w => ?_⟩
  obtain ⟨Q, pulled, measured⟩ :=
    lowered_measured (p := ⟨[.matMul 0 1 2, .add 0 1 2], 3⟩) rfl (by decide) rotation {0}
  refine (measured w).trans (if_neg ?_)
  obtain ⟨R, found, flips⟩ : ∃ R, pullBack (.phase {0}) [.single .hadamard ⟨0⟩,
      .double .cnot ⟨0⟩ ⟨1⟩, .single .hadamard ⟨0⟩, .double .cnot ⟨0⟩ ⟨2⟩,
      .double .cnot ⟨1⟩ ⟨2⟩] = some R ∧ R.x ≠ ∅ := ⟨_, rfl, by decide⟩
  rwa [Option.some.inj (pulled.symm.trans found)]

end SovereignPirtm.Lowering
