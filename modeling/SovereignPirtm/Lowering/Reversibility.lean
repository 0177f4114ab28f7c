import SovereignPirtm.Lowering.Meaning

/-!
# Lowerings that can be undone

A lowered circuit is unitary unless an operation names one wire twice, and then a program can be
written that undoes it.
-/

namespace SovereignPirtm.Lowering
open Library Operator TensorOp

/-- The kinds of gates that a lowering emits. Only a `CNOT` may meet a single wire. -/
def Gate.Emittable : Gate → Prop
  | .single gate _ => gate = .hadamard ∨ gate = .pauliX
  | .double .cnot _ _ => True
  | .double .swap control target => control ≠ target
  | .double .cz _ _ => False
  | .rotation _ _ => False

theorem emits_emittable {n : Nat} {op : TensorOp} {g : Gate} (emitted : g ∈ op.emits n) :
    g.Emittable := by
  cases op with
  | permute input out axes =>
      obtain ⟨i, within, ⟨moves, -⟩, rfl⟩ := mem_swaps.mp emitted
      exact fun same => moves (Qubit.mk.inj same)
  | scalarMul tensor out scalar =>
      rw [emits] at emitted
      split_ifs at emitted
      · rw [List.mem_singleton.mp emitted]
        trivial
      · simp only [List.mem_cons, List.not_mem_nil, or_false] at emitted
        rcases emitted with rfl | rfl | rfl <;> simp [Gate.Emittable]
      · cases emitted
  | reshape input shape => cases emitted
  | _ =>
      simp only [emits, List.mem_cons, List.not_mem_nil, or_false] at emitted
      rcases emitted with rfl | rfl | rfl | rfl <;> simp [Gate.Emittable]

section Operators
variable (rotation : Nat → UInt64 → Operator (Nat → Bool)) {g : Gate}

theorem Gate.unitary (emittable : g.Emittable) (apart : g.Apart) : Unitary (g.operator rotation) := by
  match g, emittable with
  | .single .hadamard target, _ => exact unitary_hadamard target.index
  | .single .pauliX target, _ => exact unitary_pauliX target.index
  | .double .cnot control target, _ =>
      exact unitary_cnot fun same => apart (congrArg Qubit.mk same)
  | .double .swap control target, _ => exact unitary_exchange control.index target.index

theorem Gate.mul_self (emittable : g.Emittable) (apart : g.Apart) :
    g.operator rotation * g.operator rotation = 1 := by
  match g, emittable with
  | .single .hadamard target, _ => exact hadamard_mul_self target.index
  | .single .pauliX target, _ => exact pauliX_mul_self target.index
  | .double .cnot control target, _ =>
      exact cnot_mul_self fun same => apart (congrArg Qubit.mk same)
  | .double .swap control target, _ => exact exchange_mul_self control.index target.index

theorem Gate.not_injective (emittable : g.Emittable) (aliased : ¬ g.Apart) :
    ¬ Function.Injective (g.operator rotation) := by
  match g, emittable with
  | .single gate target, _ => exact absurd trivial aliased
  | .double .cnot control target, _ =>
      obtain rfl := not_not.mp aliased
      exact cnot_not_injective control.index
  | .double .swap control target, apart => exact absurd apart aliased

/-! ## Gate lists -/

variable {gates : List Gate} (emittable : ∀ g ∈ gates, g.Emittable)
include emittable

theorem meaning_unitary (apart : ∀ g ∈ gates, g.Apart) : Unitary (meaning rotation gates) := by
  induction gates with
  | nil => exact Unitary.one
  | cons g gates ih =>
      rw [List.forall_mem_cons] at emittable apart
      exact (g.unitary rotation emittable.1 apart.1).mul (ih emittable.2 apart.2)

theorem apart_of_injective (injective : Function.Injective (meaning rotation gates)) :
    ∀ g ∈ gates, g.Apart := by
  induction gates with
  | nil => exact List.forall_mem_nil _
  | cons g gates ih =>
      rw [List.forall_mem_cons] at emittable ⊢
      rw [meaning, Module.End.coe_mul] at injective
      have first : g.Apart := by
        by_contra aliased
        exact g.not_injective rotation emittable.1 aliased injective.of_comp
      refine ⟨first, ih emittable.2 ?_⟩
      -- the first gate is its own inverse, and what comes after it is both of them and it once more
      have later := injective.comp (g.unitary rotation emittable.1 first).injective
      rwa [Function.comp_assoc, ← Module.End.coe_mul (g.operator rotation),
        g.mul_self rotation emittable.1 first, Module.End.coe_one, Function.comp_id] at later

theorem meaning_reverse_iff :
    meaning rotation (gates ++ gates.reverse) = 1 ↔ ∀ g ∈ gates, g.Apart := by
  constructor
  · intro identity
    rw [meaning_append] at identity
    apply apart_of_injective rotation emittable
    apply Function.LeftInverse.injective (g := meaning rotation gates.reverse)
    exact LinearMap.congr_fun identity
  · intro apart
    induction gates with
    | nil => exact one_mul 1
    | cons g gates ih =>
        rw [List.forall_mem_cons] at emittable apart
        rw [List.reverse_cons, List.cons_append, meaning, ← List.append_assoc, meaning_append,
          ih emittable.2 apart.2, mul_one, meaning, meaning, one_mul,
          g.mul_self rotation emittable.1 apart.1]

end Operators

/-! ## Any circuit -/

/-- Only a `CNOT` resets its wire when its control is its target. -/
def Gate.Reversible : Gate → Prop
  | .double .cnot control target => control ≠ target
  | _ => True

section Circuits
variable {rotation : Nat → UInt64 → Operator (Nat → Bool)}

theorem Gate.reversible_of_injective {g : Gate}
    (injective : Function.Injective (g.operator rotation)) : g.Reversible := by
  cases g with
  | double gate control target =>
      cases gate with
      | cnot =>
          rintro rfl
          exact cnot_not_injective control.index injective
      | _ => trivial
  | _ => trivial

variable (rotations : ∀ q angle, Unitary (rotation q angle))
include rotations

theorem Gate.unitary_of_reversible {g : Gate} (reversible : g.Reversible) :
    Unitary (g.operator rotation) := by
  cases g with
  | single gate target =>
      cases gate with
      | pauliX => exact unitary_pauliX target.index
      | pauliY => exact unitary_pauliY target.index
      | pauliZ => exact unitary_pauliZ target.index
      | hadamard => exact unitary_hadamard target.index
      | tGate => exact unitary_phaseGate quarter_turn target.index
      | sGate => exact unitary_phaseGate (by simp) target.index
  | double gate control target =>
      cases gate with
      | cnot => exact unitary_cnot fun same => reversible (congrArg Qubit.mk same)
      | cz => exact unitary_cz control.index target.index
      | swap => exact unitary_exchange control.index target.index
  | rotation target angle => exact rotations target.index angle

theorem meaning_unitary_iff (gates : List Gate) :
    Unitary (meaning rotation gates) ↔ ∀ g ∈ gates, g.Reversible := by
  induction gates with
  | nil => exact iff_of_true Unitary.one (List.forall_mem_nil _)
  | cons g gates ih =>
      rw [List.forall_mem_cons, meaning]
      constructor
      · intro unitary
        have injective := unitary.injective
        rw [Module.End.coe_mul] at injective
        have reversible := Gate.reversible_of_injective injective.of_comp
        exact ⟨reversible, ih.mp ((Gate.unitary_of_reversible rotations reversible).mul_iff.mp unitary)⟩
      · rintro ⟨reversible, later⟩
        exact (Gate.unitary_of_reversible rotations reversible).mul (ih.mpr later)

end Circuits

/-- A `CZ` and a `SWAP` may meet a single wire. -/
theorem meaning_unitary_single_wire :
    Unitary (meaning (fun _ _ => 1) [.double .cz ⟨0⟩ ⟨0⟩, .double .swap ⟨1⟩ ⟨1⟩,
      .single .tGate ⟨0⟩, .rotation ⟨1⟩ 0]) :=
  (meaning_unitary_iff (fun _ _ => Unitary.one) _).mpr (by simp [Gate.Reversible])

/-! ## Lowered circuits -/

section Lowered
variable {p : PirtnProgram} {c : Circuit} (lowered : p.lowerToCircuit = .ok c)
include lowered

theorem gates_emittable : ∀ g ∈ c.gates, g.Emittable :=
  (forall_gates_iff lowered _).mpr fun _ _ _ emitted _ => emits_emittable emitted

theorem lowered_unitary_iff (rotation : Nat → UInt64 → Operator (Nat → Bool)) :
    Unitary (meaning rotation c.gates) ↔ ∀ op ∈ p.ops, op.Unaliased := by
  rw [← gates_apart_iff lowered]
  constructor
  · exact fun unitary => apart_of_injective rotation (gates_emittable lowered) unitary.injective
  · exact meaning_unitary rotation (gates_emittable lowered)

end Lowered

theorem lowered_unitary_entangle :
    ∃ c, PirtnProgram.lowerToCircuit ⟨[.matMul 0 1 2, .contract 0 1 2 0], 3⟩ = .ok c ∧
      ∀ rotation, Unitary (meaning rotation c.gates) :=
  ⟨_, rfl, fun rotation => (lowered_unitary_iff
    (p := ⟨[.matMul 0 1 2, .contract 0 1 2 0], 3⟩) rfl rotation).mpr (by decide)⟩

/-! ## Undoing a program -/

/-- A single swap is what is left of a `Permute` whose axes stay in place up to the last one. -/
def TensorOp.undo : TensorOp → List TensorOp
  | .matMul a b c => [.matMul a b c]
  | .add a b out => [.add b a out]
  | .contract a b out axis => [.contract b a out axis]
  | .permute input out axes =>
      axes.zipIdx.reverse.map fun (target, i) => .permute input out (List.range i ++ [target])
  | .scalarMul tensor out scalar => [.scalarMul tensor out scalar]
  | .reshape input shape => [.reshape input shape]

def PirtnProgram.undone (p : PirtnProgram) : PirtnProgram :=
  { p with ops := p.ops ++ p.ops.reverse.flatMap undo }

theorem swaps_range (n i target : Nat) : swaps n (List.range i ++ [target]) =
    if i ≠ target ∧ target < n then [.double .swap ⟨i⟩ ⟨target⟩] else [] := by
  have still : (List.range i).zipIdx.filterMap (fun (target, i) =>
      if i ≠ target ∧ target < n then some (Gate.double .swap ⟨i⟩ ⟨target⟩) else none) = [] := by
    rw [List.filterMap_eq_nil_iff]
    rintro ⟨target, j⟩ member
    have found : (List.range i)[j]? = some target := List.mem_zipIdx_iff_getElem?.mp member
    obtain ⟨within, rfl⟩ := List.getElem?_eq_some_iff.mp found
    simp
  rw [swaps, List.zipIdx_append, List.filterMap_append, still, List.length_range]
  by_cases moves : i ≠ target ∧ target < n
  · simp [moves]
  · simp [moves]

theorem emits_undo (n : Nat) (op : TensorOp) :
    op.undo.flatMap (emits n) = (op.emits n).reverse := by
  cases op with
  | permute input out axes =>
      rw [undo, emits, swaps]
      generalize axes.zipIdx = entries
      induction entries with
      | nil => rfl
      | cons entry entries ih =>
          obtain ⟨target, i⟩ := entry
          rw [List.reverse_cons, List.map_append, List.flatMap_append, ih, List.map_singleton,
            List.flatMap_singleton, emits, swaps_range]
          by_cases moves : i ≠ target ∧ target < n
          · simp [moves]
          · simp [moves]
  | scalarMul tensor out scalar =>
      rw [undo, List.flatMap_singleton, emits]
      split_ifs <;> rfl
  | _ => rfl

theorem undo_guarded {n : Nat} {op : TensorOp} (guarded : op.Guarded n) :
    ∀ back ∈ op.undo, back.Guarded n := by
  intro back member
  cases op with
  | permute input out axes =>
      obtain ⟨entry, -, rfl⟩ := List.mem_map.mp member
      exact guarded
  | add a b out =>
      obtain rfl := List.mem_singleton.mp member
      simp_all [Guarded, TensorOp.guarded]
  | contract a b out axis =>
      obtain rfl := List.mem_singleton.mp member
      simp_all [Guarded, TensorOp.guarded]
  | _ =>
      obtain rfl := List.mem_singleton.mp member
      exact guarded

theorem flatMap_undo (n : Nat) (ops : List TensorOp) :
    (ops.reverse.flatMap undo).flatMap (emits n) = (ops.flatMap (emits n)).reverse := by
  induction ops with
  | nil => rfl
  | cons op ops ih =>
      rw [List.reverse_cons, List.flatMap_append, List.flatMap_append, ih, List.flatMap_singleton,
        emits_undo, List.flatMap_cons, List.reverse_append]

theorem undone_gates (p : PirtnProgram) :
    (p.undone.ops.flatMap (emits p.width)).filter (·.InRegister p.width) =
      (p.ops.flatMap (emits p.width)).filter (·.InRegister p.width) ++
        ((p.ops.flatMap (emits p.width)).filter (·.InRegister p.width)).reverse := by
  rw [PirtnProgram.undone, List.flatMap_append, flatMap_undo, List.filter_append,
    List.filter_reverse]

theorem undone_eq_one_iff {p : PirtnProgram} {c : Circuit} (lowered : p.lowerToCircuit = .ok c)
    (rotation : Nat → UInt64 → Operator (Nat → Bool)) :
    ∃ c', p.undone.lowerToCircuit = .ok c' ∧ c'.gates = c.gates ++ c.gates.reverse ∧
      (meaning rotation c'.gates = 1 ↔ ∀ op ∈ p.ops, op.Unaliased) := by
  have emittable := gates_emittable lowered
  have apart := gates_apart_iff lowered
  obtain ⟨nonempty, guarded, rfl⟩ := PirtnProgram.lowerToCircuit_ok_iff.mp lowered
  refine ⟨_, PirtnProgram.lowerToCircuit_ok_iff.mpr ⟨?_, ?_, rfl⟩, ?_, ?_⟩
  · simp [PirtnProgram.undone, nonempty]
  · refine List.forall_mem_append.mpr ⟨guarded, fun back member => ?_⟩
    obtain ⟨op, source, inside⟩ := List.mem_flatMap.mp member
    exact undo_guarded (guarded op (List.mem_reverse.mp source)) back inside
  · exact undone_gates p
  · have same := congrArg (fun gates => meaning rotation gates = 1) (undone_gates p)
    exact same.to_iff.trans ((meaning_reverse_iff rotation emittable).trans apart)

theorem undone_eq_one_permute :
    ∃ c', (PirtnProgram.undone ⟨[.matMul 0 1 2, .permute 0 1 [1, 2, 0]], 3⟩).lowerToCircuit =
        .ok c' ∧ ∀ rotation, meaning rotation c'.gates = 1 := by
  refine ⟨_, rfl, fun rotation => ?_⟩
  obtain ⟨c', lowered, -, identity⟩ := undone_eq_one_iff
    (p := ⟨[.matMul 0 1 2, .permute 0 1 [1, 2, 0]], 3⟩) rfl rotation
  obtain rfl := Except.ok.inj lowered
  exact identity.mpr (by decide)

end SovereignPirtm.Lowering
