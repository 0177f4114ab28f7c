import SovereignPirtm.Lowering.Emission

/-!
# The gates of a lowered circuit

Which operations lose a gate on the way, and which ones put a two-qubit gate on a single wire.
-/

namespace SovereignPirtm.Lowering
open TensorOp

theorem mem_swaps {n : Nat} {axes : List Nat} {g : Gate} : g ∈ swaps n axes ↔
    ∃ i, ∃ within : i < axes.length,
      (i ≠ axes[i] ∧ axes[i] < n) ∧ g = .double .swap ⟨i⟩ ⟨axes[i]⟩ := by
  rw [swaps, List.mem_filterMap]
  constructor
  · rintro ⟨⟨target, i⟩, member, emitted⟩
    have found : axes[i]? = some target := List.mem_zipIdx_iff_getElem?.mp member
    obtain ⟨within, rfl⟩ := List.getElem?_eq_some_iff.mp found
    obtain ⟨moves, gate⟩ := Option.ite_none_right_eq_some.mp emitted
    exact ⟨i, within, moves, (Option.some.inj gate).symm⟩
  · rintro ⟨i, within, moves, rfl⟩
    exact ⟨(axes[i], i), List.mem_zipIdx_iff_getElem?.mpr (List.getElem?_eq_getElem within),
      if_pos moves⟩

section Lowered
variable {p : PirtnProgram} {c : Circuit} (lowered : p.lowerToCircuit = .ok c)
include lowered

theorem mem_gates_iff {g : Gate} :
    g ∈ c.gates ↔ ∃ op ∈ p.ops, g ∈ op.emits p.width ∧ g.InRegister p.width := by
  obtain ⟨-, -, rfl⟩ := PirtnProgram.lowerToCircuit_ok_iff.mp lowered
  simp only [Emission.of, List.mem_filter, decide_eq_true_iff, List.mem_flatMap]
  constructor
  · rintro ⟨⟨op, member, emitted⟩, inside⟩
    exact ⟨op, member, emitted, inside⟩
  · rintro ⟨op, member, emitted, inside⟩
    exact ⟨⟨op, member, emitted⟩, inside⟩

theorem forall_gates_iff (P : Gate → Prop) :
    (∀ g ∈ c.gates, P g) ↔ ∀ op ∈ p.ops, ∀ g ∈ op.emits p.width, g.InRegister p.width → P g := by
  constructor
  · intro all op member g emitted inside
    exact all g ((mem_gates_iff lowered).mpr ⟨op, member, emitted, inside⟩)
  · intro all g member
    obtain ⟨op, member, emitted, inside⟩ := (mem_gates_iff lowered).mp member
    exact all op member g emitted inside

end Lowered

/-! ## Gates that are lost -/

def TensorOp.Covered (n : Nat) : TensorOp → Prop
  | .permute _ _ axes => ∀ i, ∀ within : i < axes.length, n ≤ i → n ≤ axes[i]
  | _ => True

instance (n : Nat) : DecidablePred (Covered n)
  | .permute _ _ axes =>
      inferInstanceAs (Decidable (∀ i, ∀ within : i < axes.length, n ≤ i → n ≤ axes[i]))
  | .matMul _ _ _ => isTrue trivial
  | .add _ _ _ => isTrue trivial
  | .contract _ _ _ _ => isTrue trivial
  | .scalarMul _ _ _ => isTrue trivial
  | .reshape _ _ => isTrue trivial

theorem swaps_inRegister_iff {n : Nat} {axes : List Nat} :
    (∀ g ∈ swaps n axes, g.InRegister n) ↔
      ∀ i, ∀ within : i < axes.length, n ≤ i → n ≤ axes[i] := by
  constructor
  · intro inside i within beyond
    by_contra! target
    have emitted := mem_swaps.mpr ⟨i, within, ⟨by omega, target⟩, rfl⟩
    have position := inside _ emitted ⟨i⟩ List.mem_cons_self
    exact absurd beyond (not_le.mpr position)
  · intro covered g member
    obtain ⟨i, within, ⟨-, target⟩, rfl⟩ := mem_swaps.mp member
    have position : i < n := by
      by_contra! beyond
      exact absurd (covered i within beyond) (not_le.mpr target)
    simp [Gate.InRegister, Gate.qubits, position, target]

theorem emits_inRegister_iff {n : Nat} {op : TensorOp} (guarded : op.Guarded n) :
    (∀ g ∈ op.emits n, g.InRegister n) ↔ op.Covered n := by
  cases op with
  | permute input out axes => exact swaps_inRegister_iff
  | scalarMul tensor out scalar =>
      simp only [Guarded, TensorOp.guarded, List.forall_mem_cons] at guarded
      simp only [Covered, emits, iff_true]
      split_ifs <;> simp [Gate.InRegister, Gate.qubits, guarded]
  | _ => simp_all [Guarded, TensorOp.guarded, Covered, emits, Gate.InRegister, Gate.qubits]

theorem discarded_ok_iff {p : PirtnProgram} {s : Emission} (lowered : p.lowering = .ok s) :
    (∀ result ∈ s.discarded, result = .ok ()) ↔ ∀ op ∈ p.ops, op.Covered p.width := by
  obtain ⟨-, guarded, rfl⟩ := PirtnProgram.lowering_ok_iff.mp lowered
  rw [Emission.of, List.forall_mem_map, List.forall_mem_flatMap]
  apply forall₂_congr
  intro op member
  rw [← emits_inRegister_iff (guarded op member)]
  exact forall₂_congr fun g _ => Gate.check_ok_iff

def swapped : PirtnProgram := ⟨[.permute 0 1 [1, 0]], 2⟩

theorem discarded_ok_swapped : ∃ s, swapped.lowering = .ok s ∧
    ∀ result ∈ s.discarded, result = .ok () :=
  ⟨_, rfl, (discarded_ok_iff (p := swapped) rfl).mpr (by decide)⟩

theorem discarded_not_ok_swapped :
    ∃ s, PirtnProgram.lowering ⟨[.permute 0 1 [1, 0, 0]], 2⟩ = .ok s ∧
      .error (.qubitOutOfBounds 2 2) ∈ s.discarded :=
  ⟨_, rfl, by decide⟩

/-! ## Gates on a single wire -/

def Gate.Apart : Gate → Prop
  | .double _ control target => control ≠ target
  | _ => True

instance : DecidablePred Gate.Apart
  | .double _ control target => inferInstanceAs (Decidable (control ≠ target))
  | .single _ _ => isTrue trivial
  | .rotation _ _ => isTrue trivial

def TensorOp.Unaliased : TensorOp → Prop
  | .matMul a b _ => a ≠ b
  | .add a b out => a ≠ out ∧ b ≠ out
  | .contract a b out _ => a ≠ out ∧ b ≠ out
  | .scalarMul tensor out scalar => scalar = 1 ∨ scalar = 2 → tensor ≠ out
  | .permute _ _ _ => True
  | .reshape _ _ => True

instance : DecidablePred Unaliased
  | .matMul _ _ _ => inferInstanceAs (Decidable (_ ≠ _))
  | .add _ _ _ => inferInstanceAs (Decidable (_ ∧ _))
  | .contract _ _ _ _ => inferInstanceAs (Decidable (_ ∧ _))
  | .scalarMul _ _ _ => inferInstanceAs (Decidable (_ → _))
  | .permute _ _ _ => isTrue trivial
  | .reshape _ _ => isTrue trivial

theorem emits_apart_iff {n : Nat} {op : TensorOp} (guarded : op.Guarded n) :
    (∀ g ∈ op.emits n, g.InRegister n → g.Apart) ↔ op.Unaliased := by
  cases op with
  | permute input out axes =>
      simp only [Unaliased, iff_true]
      intro g member _
      obtain ⟨i, within, ⟨moves, -⟩, rfl⟩ := mem_swaps.mp member
      exact fun same => moves (Qubit.mk.inj same)
  | scalarMul tensor out scalar =>
      simp only [Guarded, TensorOp.guarded, List.forall_mem_cons] at guarded
      simp only [Unaliased, emits]
      split_ifs <;> simp_all [Gate.InRegister, Gate.qubits, Gate.Apart]
  | _ =>
      simp_all [Guarded, TensorOp.guarded, Unaliased, emits, Gate.InRegister, Gate.qubits,
        Gate.Apart]

theorem gates_apart_iff {p : PirtnProgram} {c : Circuit} (lowered : p.lowerToCircuit = .ok c) :
    (∀ g ∈ c.gates, g.Apart) ↔ ∀ op ∈ p.ops, op.Unaliased := by
  have guarded := (PirtnProgram.lowerToCircuit_ok_iff.mp lowered).2.1
  rw [forall_gates_iff lowered]
  exact forall₂_congr fun op member => emits_apart_iff (guarded op member)

theorem gates_apart_add : ∃ c, PirtnProgram.lowerToCircuit ⟨[.add 0 1 2], 3⟩ = .ok c ∧
    ∀ g ∈ c.gates, g.Apart :=
  ⟨_, rfl, (gates_apart_iff (p := ⟨[.add 0 1 2], 3⟩) rfl).mpr (by decide)⟩

theorem gates_not_apart_inPlace : ∃ c, PirtnProgram.lowerToCircuit ⟨[.add 0 1 0], 2⟩ = .ok c ∧
    ¬ ∀ g ∈ c.gates, g.Apart :=
  ⟨_, rfl, by decide⟩

end SovereignPirtm.Lowering
