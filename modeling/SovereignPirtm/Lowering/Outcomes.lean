import SovereignPirtm.Library.Outcomes
import SovereignPirtm.Lowering.Stabilizers

/-!
# What a lowered program puts out

The joint distribution of the bits that a lowered program leaves on any wires, computed from the
parities that are certain.
-/

namespace SovereignPirtm.Lowering
open Library Operator TensorOp
open scoped symmDiff

/-- The sets of wires whose parity is certain at the end. -/
def certain (gates : List Gate) (s : Finset Nat) : Finset (Finset Nat) :=
  s.powerset.filter fun t => (pullBack (.phase t) gates).any fun Q => Q.x = ∅

/-- The bits `v` have every parity that is certain when the wires start with `w`. -/
def Possible (gates : List Gate) (s : Finset Nat) (w v : Nat → Bool) : Prop :=
  ∀ t ∈ certain gates s, ∀ Q ∈ pullBack (.phase t) gates, parity v t = (Q.minus ^^ parity w Q.z)

instance (gates : List Gate) (s : Finset Nat) (w v : Nat → Bool) :
    Decidable (Possible gates s w v) :=
  inferInstanceAs (Decidable (∀ t ∈ certain gates s, _))

section Fronts
variable {gates : List Gate} {front : Finset Nat → Pauli Nat}
  (pulled : ∀ t, pullBack (.phase t) gates = some (front t))
include pulled

theorem certain_eq_still (s : Finset Nat) : certain gates s = Pauli.still front s := by
  refine Finset.filter_congr fun t _ => ?_
  rw [pulled, Option.any_some, decide_eq_true_iff]

theorem possible_iff {s : Finset Nat} {w v : Nat → Bool} : Possible gates s w v ↔
    ∀ t ∈ Pauli.still front s, parity v t = ((front t).minus ^^ parity w (front t).z) := by
  rw [Possible, certain_eq_still pulled]
  refine forall₂_congr fun t _ => ?_
  simp only [pulled, Option.mem_def, Option.some.injEq, forall_eq']

end Fronts

theorem lowered_outcomes {p : PirtnProgram} {c : Circuit} (lowered : p.lowerToCircuit = .ok c)
    (unaliased : ∀ op ∈ p.ops, op.Unaliased) (rotation : Nat → UInt64 → Operator (Nat → Bool))
    (s : Finset Nat) :
    (∃ k ≤ s.card, (certain c.gates s).card = 2 ^ k) ∧ ∀ w v,
      probability (agrees s v) (meaning rotation c.gates (basis w)) =
        if Possible c.gates s w v then ((certain c.gates s).card : ℝ) / 2 ^ s.card else 0 := by
  have apart := (gates_apart_iff lowered).mpr unaliased
  have unitary := meaning_unitary rotation (gates_emittable lowered) apart
  choose front pulled using fun t => pullBack_isSome (gates_emittable lowered) apart (.phase t)
  have passes (t : Finset Nat) := pullBack_passes rotation (pulled t)
  rw [certain_eq_still pulled]
  refine ⟨(Pauli.closed_still unitary passes s).card_eq_two_pow (Finset.filter_subset _ _), ?_⟩
  intro w v
  rw [if_congr (possible_iff pulled) rfl rfl]
  exact Pauli.probability_joint unitary passes s w v

/-- Behind a product and a sum, the sum is that of the factors, and these are two fair coins. -/
theorem lowered_outcomes_fair : ∃ c,
    PirtnProgram.lowerToCircuit ⟨[.matMul 0 1 2, .add 0 1 2], 3⟩ = .ok c ∧ ∀ rotation v,
      probability (agrees {0, 1, 2} v) (meaning rotation c.gates (basis fun _ => false)) =
        if (v 0 ^^ v 1) = v 2 then 1 / 4 else 0 := by
  refine ⟨_, rfl, fun rotation v => ?_⟩
  have joint := (lowered_outcomes (p := ⟨[.matMul 0 1 2, .add 0 1 2], 3⟩) rfl (by decide) rotation
    {0, 1, 2}).2 (fun _ => false) v
  let gates : List Gate := [.single .hadamard ⟨0⟩, .double .cnot ⟨0⟩ ⟨1⟩, .single .hadamard ⟨0⟩,
    .double .cnot ⟨0⟩ ⟨2⟩, .double .cnot ⟨1⟩ ⟨2⟩]
  have sets : certain gates {0, 1, 2} = {∅, {0, 1, 2}} := by decide
  have nothing : pullBack (.phase ∅) gates = some (.phase ∅) := by decide
  have all : pullBack (.phase {0, 1, 2}) gates = some (.phase {2}) := by decide
  have parts : ({0, 1, 2} : Finset Nat) = {0} ∆ {1} ∆ {2} := by decide
  have possible : Possible gates {0, 1, 2} (fun _ => false) v ↔ (v 0 ^^ v 1) = v 2 := by
    simp only [Possible, sets, Finset.mem_insert, Finset.mem_singleton, forall_eq_or_imp, forall_eq,
      nothing, all, Option.mem_def, Option.some.injEq, forall_eq']
    simp only [Pauli.phase, parts, parity_symmDiff, parity_singleton, parity_empty]
    cases v 0 <;> cases v 1 <;> cases v 2 <;> simp
  have weight : ((certain gates {0, 1, 2}).card : ℝ) / 2 ^ ({0, 1, 2} : Finset Nat).card = 1 / 4 := by
    rw [sets, show ({∅, {0, 1, 2}} : Finset (Finset Nat)).card = 2 by decide,
      show ({0, 1, 2} : Finset Nat).card = 3 by decide]
    norm_num
  exact joint.trans (if_congr possible weight rfl)

end SovereignPirtm.Lowering
