import SovereignPirtm.Library.Tableau
import SovereignPirtm.Lowering.Stabilizers

/-!
# Programs that mean the same

Whether two lowered programs have the same meaning, up to a phase that no measurement sees, is decided
by the Pauli strings that come out as `X` and as `Z` on each wire of the larger register.
-/

namespace SovereignPirtm.Lowering
open Library Operator TensorOp
open ComplexConjugate

/-- The same strings come out as `X` and as `Z` on each wire of the register. -/
def SameTableau (n : Nat) (gates gates' : List Gate) : Prop :=
  ∀ q < n, pullBack (.single q) gates = pullBack (.single q) gates' ∧
    pullBack (.phase {q}) gates = pullBack (.phase {q}) gates'

instance (n : Nat) (gates gates' : List Gate) : Decidable (SameTableau n gates gates') :=
  inferInstanceAs (Decidable (∀ q < n, _ ∧ _))

section Register
variable (rotation : Nat → UInt64 → Operator (Nat → Bool)) {n : Nat}

theorem Gate.shift_commute {g : Gate} (emittable : g.Emittable) {f : Nat → Bool}
    (still : ∀ q ∈ g.qubits, f q.index = false) : Commute (shift f) (g.operator rotation) := by
  match g, emittable with
  | .single .hadamard target, _ => exact hadamard_commute_shift (still target (by simp [qubits]))
  | .single .pauliX target, _ => exact pauliX_commute_shift target.index f
  | .double .cnot control target, _ => exact cnot_commute_shift (still control (by simp [qubits]))
  | .double .swap control target, _ =>
      exact exchange_commute_shift (still control (by simp [qubits])) (still target (by simp [qubits]))

theorem Gate.pullBack_outside {g : Gate} (emittable : g.Emittable) (apart : g.Apart) {q : Nat}
    (outside : ∀ target ∈ g.qubits, target.index ≠ q) :
    g.pullBack (.phase {q}) = some (.phase {q}) := by
  match g, emittable with
  | .single .hadamard target, _ =>
      have other := outside target (by simp [qubits])
      simp [pullBack, Pauli.hadamard, Pauli.phase, Pauli.negateIf, other]
  | .single .pauliX target, _ =>
      have other := outside target (by simp [qubits])
      simp [pullBack, Pauli.phase, Pauli.negateIf, other]
  | .double .cnot control target, _ =>
      have other := outside target (by simp [qubits])
      have different : control ≠ target := apart
      simp [pullBack, Pauli.cnot, Pauli.phase, other, different]
  | .double .swap control target, _ =>
      have other := outside control (by simp [qubits])
      have other' := outside target (by simp [qubits])
      simp [pullBack, Pauli.exchange, Pauli.phase, Equiv.swap_apply_of_ne_of_ne other.symm other'.symm]

theorem Gate.within {g : Gate} (emittable : g.Emittable) (apart : g.Apart) (inside : g.InRegister n) :
    Within (Finset.range n) (g.operator rotation) := by
  refine ⟨fun f still => ?_, fun q outside => ?_⟩
  · exact g.shift_commute rotation emittable fun q member =>
      still q.index (Finset.mem_range.mpr (inside q member))
  · have other (target) (member : target ∈ g.qubits) : target.index ≠ q := by
      rintro rfl
      exact outside (Finset.mem_range.mpr (inside target member))
    have passes := g.pullBack_passes rotation (g.pullBack_outside emittable apart other)
    rwa [Pauli.operator_phase] at passes

theorem meaning_within {gates : List Gate} (emittable : ∀ g ∈ gates, g.Emittable)
    (apart : ∀ g ∈ gates, g.Apart) (inside : ∀ g ∈ gates, g.InRegister n) :
    Within (Finset.range n) (meaning rotation gates) := by
  induction gates with
  | nil => exact Within.one
  | cons g gates ih =>
      rw [List.forall_mem_cons] at emittable apart inside
      exact (ih emittable.2 apart.2 inside.2).mul (g.within rotation emittable.1 apart.1 inside.1)

end Register

/-! ## Circuits -/

section Circuits
variable (rotation : Nat → UInt64 → Operator (Nat → Bool)) {n : Nat} {gates gates' : List Gate}
  (emittable : ∀ g ∈ gates, g.Emittable) (apart : ∀ g ∈ gates, g.Apart)
include emittable apart

theorem passes_of_pullBack_eq {P : Pauli Nat} (same : pullBack P gates = pullBack P gates') :
    ∃ Q, P.operator * meaning rotation gates = meaning rotation gates * Q ∧
      P.operator * meaning rotation gates' = meaning rotation gates' * Q := by
  obtain ⟨Q, pulled⟩ := pullBack_isSome emittable apart P
  exact ⟨Q.operator, pullBack_passes rotation pulled, pullBack_passes rotation (same ▸ pulled)⟩

variable (emittable' : ∀ g ∈ gates', g.Emittable) (apart' : ∀ g ∈ gates', g.Apart)
include emittable' apart'

theorem pullBack_eq_of_smul {z : ℂ} (unit : conj z * z = 1)
    (same : meaning rotation gates = z • meaning rotation gates') (P : Pauli Nat) :
    pullBack P gates = pullBack P gates' := by
  obtain ⟨Q, pulled⟩ := pullBack_isSome emittable apart P
  obtain ⟨Q', pulled'⟩ := pullBack_isSome emittable' apart' P
  have nonzero : z ≠ 0 := right_ne_zero_of_mul_eq_one unit
  rw [pulled, pulled', Pauli.eq_of_passes (meaning_unitary rotation emittable' apart') nonzero same
    (pullBack_passes rotation pulled) (pullBack_passes rotation pulled')]

theorem meaning_eq_smul_iff (inside : ∀ g ∈ gates, g.InRegister n)
    (inside' : ∀ g ∈ gates', g.InRegister n) :
    (∃ z : ℂ, conj z * z = 1 ∧ meaning rotation gates = z • meaning rotation gates') ↔
      SameTableau n gates gates' := by
  constructor
  · rintro ⟨z, unit, same⟩ q -
    have pulled := pullBack_eq_of_smul rotation emittable apart emittable' apart' unit same
    exact ⟨pulled _, pulled _⟩
  · intro tableau
    have unitary := meaning_unitary rotation emittable apart
    have unitary' := meaning_unitary rotation emittable' apart'
    have flips (q : Nat) (member : q ∈ Finset.range n) :=
      passes_of_pullBack_eq rotation emittable apart (tableau q (Finset.mem_range.mp member)).1
    have phases (q : Nat) (member : q ∈ Finset.range n) :=
      passes_of_pullBack_eq rotation emittable apart (tableau q (Finset.mem_range.mp member)).2
    simp only [Pauli.operator_single, Pauli.operator_phase] at flips phases
    obtain ⟨z, same⟩ := eq_smul_of_passes (meaning_within rotation emittable apart inside)
      (meaning_within rotation emittable' apart' inside') unitary' flips phases
    exact ⟨z, unit_of_eq_smul unitary unitary' same fun _ => false, same⟩

end Circuits

/-! ## Lowered circuits -/

theorem gates_inRegister {p : PirtnProgram} {c : Circuit} (lowered : p.lowerToCircuit = .ok c) :
    ∀ g ∈ c.gates, g.InRegister p.width := by
  intro g member
  obtain ⟨op, -, -, inside⟩ := (mem_gates_iff lowered).mp member
  exact inside

theorem Gate.InRegister.mono {g : Gate} {n m : Nat} (smaller : n ≤ m) (inside : g.InRegister n) :
    g.InRegister m :=
  fun q member => lt_of_lt_of_le (inside q member) smaller

theorem lowered_equivalent_iff {p q : PirtnProgram} {c d : Circuit}
    (lowered : p.lowerToCircuit = .ok c) (lowered' : q.lowerToCircuit = .ok d)
    (unaliased : ∀ op ∈ p.ops, op.Unaliased) (unaliased' : ∀ op ∈ q.ops, op.Unaliased)
    (rotation : Nat → UInt64 → Operator (Nat → Bool)) :
    (∃ z : ℂ, conj z * z = 1 ∧ meaning rotation c.gates = z • meaning rotation d.gates) ↔
      SameTableau (max p.width q.width) c.gates d.gates :=
  meaning_eq_smul_iff rotation (gates_emittable lowered) ((gates_apart_iff lowered).mpr unaliased)
    (gates_emittable lowered') ((gates_apart_iff lowered').mpr unaliased')
    (fun g member => (gates_inRegister lowered g member).mono (le_max_left _ _))
    fun g member => (gates_inRegister lowered' g member).mono (le_max_right _ _)

/-- Contractions by the two terms on either side of the swap, and the swap before the sum. -/
theorem lowered_equivalent_moved : ∃ c d,
    PirtnProgram.lowerToCircuit ⟨[.add 0 1 2, .permute 0 1 [1]], 3⟩ = .ok c ∧
      PirtnProgram.lowerToCircuit
        ⟨[.contract 0 2 1 0, .permute 1 0 [1], .contract 1 2 0 0, .add 0 1 2], 3⟩ = .ok d ∧
      ∀ rotation, ∃ z : ℂ, conj z * z = 1 ∧ meaning rotation c.gates = z • meaning rotation d.gates :=
  ⟨_, _, rfl, rfl, fun rotation => (lowered_equivalent_iff
    (p := ⟨[.add 0 1 2, .permute 0 1 [1]], 3⟩)
    (q := ⟨[.contract 0 2 1 0, .permute 1 0 [1], .contract 1 2 0 0, .add 0 1 2], 3⟩)
    rfl rfl (by decide) (by decide) rotation).mpr (by decide)⟩

end SovereignPirtm.Lowering
