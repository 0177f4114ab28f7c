import SovereignPirtm.Lowering.Gates

/-!
# Which programs are lowered

The programs that the lowering accepts, how their circuits are put together, and what becomes of the
error when it refuses one.
-/

namespace SovereignPirtm.Lowering
open TensorOp

/-! ## Refusals -/

theorem foldlM_lowerOp_refused {n : Nat} {ops : List TensorOp} (s : Emission)
    (refused : ¬ ∀ op ∈ ops, op.Guarded n) :
    ops.foldlM (lowerOp n) s = .error (.qubitOutOfBounds n) := by
  induction ops generalizing s with
  | nil => exact absurd (by simp) refused
  | cons op ops ih =>
      rw [List.foldlM_cons, lowerOp_eq]
      by_cases inside : op.Guarded n
      · rw [List.forall_mem_cons, and_iff_right inside] at refused
        rw [if_pos inside]
        exact ih _ refused
      · rw [if_neg inside]
        rfl

namespace PirtnProgram

theorem lowerToCircuit_empty {p : PirtnProgram} (empty : p.ops = []) :
    p.lowerToCircuit = .error .emptyProgram := by
  rw [lowerToCircuit, lowering, empty]
  rfl

theorem lowerToCircuit_refused {p : PirtnProgram} (refused : ¬ ∀ op ∈ p.ops, op.Guarded p.width) :
    p.lowerToCircuit = .error (.qubitOutOfBounds p.width) := by
  have filled : ¬ p.ops.isEmpty := by
    intro nothing
    exact refused (by simp [List.isEmpty_iff.mp nothing])
  rw [lowerToCircuit, lowering, if_neg filled, lowerOps, foldlM_lowerOp_refused _ refused]
  rfl

theorem lowerToCircuit_isOk_iff {p : PirtnProgram} (nonempty : p.ops ≠ []) :
    (∃ c, p.lowerToCircuit = .ok c) ↔ ∀ op ∈ p.ops, op.Guarded p.width := by
  simp [lowerToCircuit_ok_iff, nonempty]

end PirtnProgram

structure Faithful (p : PirtnProgram) : Prop where
  empty : pirtnLower p = .error .emptyCircuit ↔ p.ops = []
  bounds : ∀ i, p.lowerToCircuit = .error (.qubitOutOfBounds i) →
    (∃ before op after, p.ops = before ++ op :: after ∧
      (∀ earlier ∈ before, earlier.Guarded p.width) ∧ ¬ op.Guarded p.width ∧ i ∈ op.guarded) ∧
    ∃ numQubits, pirtnLower p = .error (.qubitOutOfBounds i numQubits)

/-- Errors are reported for what they are only when no operand is out of bounds: the pass turns every
error into that of an empty circuit. -/
theorem faithful_iff (p : PirtnProgram) : Faithful p ↔ ∀ op ∈ p.ops, op.Guarded p.width := by
  constructor
  · intro faithful
    by_contra refused
    have error := PirtnProgram.lowerToCircuit_refused refused
    have passed : pirtnLower p = .error .emptyCircuit := by
      rw [pirtnLower, error]
      rfl
    exact refused (by simp [faithful.empty.mp passed])
  · intro guarded
    by_cases nonempty : p.ops = []
    · have error := PirtnProgram.lowerToCircuit_empty nonempty
      refine ⟨iff_of_true ?_ nonempty, fun i other => ?_⟩
      · rw [pirtnLower, error]
        rfl
      · rw [error] at other
        cases other
    · obtain ⟨c, lowered⟩ := (PirtnProgram.lowerToCircuit_isOk_iff nonempty).mpr guarded
      refine ⟨iff_of_false (fun failed => ?_) nonempty, fun i other => ?_⟩
      · rw [pirtnLower, lowered] at failed
        cases failed
      · rw [lowered] at other
        cases other

theorem not_faithful_matMul :
    ¬ Faithful ⟨[.matMul 0 1 5], 2⟩ ∧
      PirtnProgram.lowerToCircuit ⟨[.matMul 0 1 5], 2⟩ = .error (.qubitOutOfBounds 2) ∧
      pirtnLower ⟨[.matMul 0 1 5], 2⟩ = .error .emptyCircuit := by
  refine ⟨fun faithful => ?_, by decide, by decide⟩
  have empty := faithful.empty.mp (by decide)
  cases empty

/-! ## Composition -/

theorem lowered_gates {n : Nat} {ops : List TensorOp} {c : Circuit}
    (lowered : PirtnProgram.lowerToCircuit ⟨ops, n⟩ = .ok c) :
    c.gates = ops.flatMap fun op => (op.emits (max n 2)).filter (·.InRegister (max n 2)) := by
  obtain ⟨-, -, rfl⟩ := PirtnProgram.lowerToCircuit_ok_iff.mp lowered
  rw [Emission.of, List.filter_flatMap]
  rfl

theorem lowered_alone {n : Nat} {ops : List TensorOp} (guarded : ∀ op ∈ ops, op.Guarded (max n 2)) :
    ∃ alone : List Circuit,
      List.Forall₂ (fun op c => PirtnProgram.lowerToCircuit ⟨[op], n⟩ = .ok c) ops alone ∧
      alone.flatMap Circuit.gates =
        ops.flatMap fun op => (op.emits (max n 2)).filter (·.InRegister (max n 2)) := by
  induction ops with
  | nil => exact ⟨[], .nil, rfl⟩
  | cons op ops ih =>
      rw [List.forall_mem_cons] at guarded
      obtain ⟨alone, lowered, gates⟩ := ih guarded.2
      obtain ⟨c, first⟩ := (PirtnProgram.lowerToCircuit_isOk_iff (p := ⟨[op], n⟩) (by simp)).mpr
        (List.forall_mem_singleton.mpr guarded.1)
      refine ⟨c :: alone, .cons first lowered, ?_⟩
      rw [List.flatMap_cons, List.flatMap_cons, gates, lowered_gates first, List.flatMap_singleton]

/-- A program is lowered operation by operation, if each operation can be lowered alone. -/
theorem lowering_compositional (numTensors : Nat) (ops : List TensorOp) (nonempty : ops ≠ []) :
    ((∃ c, PirtnProgram.lowerToCircuit ⟨ops, numTensors⟩ = .ok c) ↔
      ∀ op ∈ ops, op.Guarded (max numTensors 2)) ∧
    (∀ c, PirtnProgram.lowerToCircuit ⟨ops, numTensors⟩ = .ok c → ∃ alone : List Circuit,
      List.Forall₂ (fun op c' => PirtnProgram.lowerToCircuit ⟨[op], numTensors⟩ = .ok c') ops alone ∧
      c.gates = alone.flatMap Circuit.gates) ∧
    ∀ more : List TensorOp, more ≠ [] →
      ((∃ c, PirtnProgram.lowerToCircuit ⟨ops ++ more, numTensors⟩ = .ok c) ↔
        (∃ c, PirtnProgram.lowerToCircuit ⟨ops, numTensors⟩ = .ok c) ∧
          ∃ c, PirtnProgram.lowerToCircuit ⟨more, numTensors⟩ = .ok c) ∧
      ∀ c c₁ c₂, PirtnProgram.lowerToCircuit ⟨ops ++ more, numTensors⟩ = .ok c →
        PirtnProgram.lowerToCircuit ⟨ops, numTensors⟩ = .ok c₁ →
        PirtnProgram.lowerToCircuit ⟨more, numTensors⟩ = .ok c₂ → c.gates = c₁.gates ++ c₂.gates := by
  have accepted {ops : List TensorOp} (nonempty : ops ≠ []) :=
    PirtnProgram.lowerToCircuit_isOk_iff (p := ⟨ops, numTensors⟩) nonempty
  refine ⟨accepted nonempty, ?_, fun more nonempty' => ⟨?_, ?_⟩⟩
  · intro c lowered
    obtain ⟨alone, each, gates⟩ := lowered_alone ((accepted nonempty).mp ⟨c, lowered⟩)
    exact ⟨alone, each, (lowered_gates lowered).trans gates.symm⟩
  · rw [accepted nonempty, accepted nonempty', accepted (by simp [nonempty])]
    exact List.forall_mem_append
  · intro c c₁ c₂ lowered lowered₁ lowered₂
    rw [lowered_gates lowered, lowered_gates lowered₁, lowered_gates lowered₂, List.flatMap_append]

theorem lowering_compositional_add :
    ∃ c, PirtnProgram.lowerToCircuit ⟨[.add 0 1 2, .matMul 0 1 2], 3⟩ = .ok c := by
  obtain ⟨first, -, -⟩ := lowering_compositional 3 [.add 0 1 2] (by simp)
  obtain ⟨-, -, joined⟩ := lowering_compositional 3 [.add 0 1 2] (by simp)
  exact (joined [.matMul 0 1 2] (by simp)).1.mpr ⟨first.mpr (by decide), _, rfl⟩

/-! ## The declared size -/

def TensorOp.mentioned : TensorOp → List Nat
  | .reshape input _ => [input]
  | op => op.guarded

def InDeclaredSize (p : PirtnProgram) (c : Circuit) : Prop :=
  (∀ op ∈ p.ops, ∀ i ∈ op.mentioned, i < p.qubitCount) ∧
    ∀ g ∈ c.gates, ∀ q ∈ g.qubits, q.index < p.qubitCount

/-- On one tensor: nothing but tensor 0 is named, and no axes swap the first two wires. -/
def TensorOp.OnFirst (op : TensorOp) : Prop :=
  (∀ i ∈ op.mentioned, i = 0) ∧
    ∀ input out axes, op = .permute input out axes →
      ∀ i target, axes[i]? = some target → i < 2 → target < 2 → target = i

theorem exists_mentioned (op : TensorOp) : ∃ i, i ∈ op.mentioned := by
  cases op <;> exact ⟨_, List.mem_cons_self⟩

theorem swaps_onFirst {axes : List Nat} :
    (∀ g ∈ swaps 2 axes, g.InRegister 2 → ∀ q ∈ g.qubits, q.index < 1) ↔
      ∀ i target, axes[i]? = some target → i < 2 → target < 2 → target = i := by
  constructor
  · intro first i target found position inside
    obtain ⟨within, rfl⟩ := List.getElem?_eq_some_iff.mp found
    by_contra moves
    have emitted := mem_swaps.mpr ⟨i, within, ⟨Ne.symm moves, inside⟩, rfl⟩
    have fits : (Gate.double .swap ⟨i⟩ ⟨axes[i]⟩).InRegister 2 := by
      simp only [Gate.InRegister, Gate.qubits, List.forall_mem_cons]
      exact ⟨position, inside, by simp⟩
    have zero := first _ emitted fits
    simp only [Gate.qubits, List.forall_mem_cons] at zero
    omega
  · intro still g member inside
    obtain ⟨i, within, ⟨moves, target⟩, rfl⟩ := mem_swaps.mp member
    have position : i < 2 := inside ⟨i⟩ List.mem_cons_self
    exact absurd (still i _ (List.getElem?_eq_getElem within) position target).symm moves

theorem emits_onFirst {op : TensorOp} (named : ∀ i ∈ op.mentioned, i = 0) :
    (∀ g ∈ op.emits 2, g.InRegister 2 → ∀ q ∈ g.qubits, q.index < 1) ↔ op.OnFirst := by
  rw [TensorOp.OnFirst, and_iff_right named]
  cases op with
  | permute input out axes =>
      refine swaps_onFirst.trans ⟨fun still _ _ _ same => ?_, fun still => still _ _ _ rfl⟩
      obtain ⟨-, -, rfl⟩ := TensorOp.permute.inj same
      exact still
  | scalarMul tensor out scalar =>
      simp only [TensorOp.mentioned, TensorOp.guarded, List.forall_mem_cons] at named
      simp only [emits, reduceCtorEq, false_implies, implies_true, iff_true]
      split_ifs <;> simp [Gate.qubits, named]
  | _ => simp_all [TensorOp.mentioned, TensorOp.guarded, emits, Gate.qubits]

section Size
variable {p : PirtnProgram} {c : Circuit} (lowered : p.lowerToCircuit = .ok c)
include lowered

theorem inDeclaredSize_of_two (large : 2 ≤ p.numTensors) : InDeclaredSize p c ↔
    ∀ input shape, .reshape input shape ∈ p.ops → input < p.numTensors := by
  have guarded := (PirtnProgram.lowerToCircuit_ok_iff.mp lowered).2.1
  have width : p.width = p.qubitCount := max_eq_left large
  constructor
  · rintro ⟨named, -⟩ input shape member
    exact named _ member input (by simp [TensorOp.mentioned])
  · intro reshapes
    constructor
    · intro op member i named
      cases op with
      | reshape input shape =>
          obtain rfl := List.mem_singleton.mp named
          exact reshapes i shape member
      | _ => exact width ▸ guarded _ member i named
    · rw [forall_gates_iff lowered]
      intro op member g emitted inside q used
      exact width ▸ inside q used

theorem inDeclaredSize_one (one : p.numTensors = 1) :
    InDeclaredSize p c ↔ ∀ op ∈ p.ops, op.OnFirst := by
  have width : p.width = 2 := by rw [PirtnProgram.width, one]; rfl
  have zero {i : Nat} : i < p.qubitCount ↔ i = 0 := by
    rw [PirtnProgram.qubitCount, one, Nat.lt_one_iff]
  simp only [InDeclaredSize, forall_gates_iff lowered, width]
  constructor
  · rintro ⟨named, gates⟩ op member
    have first : ∀ i ∈ op.mentioned, i = 0 := fun i found => zero.mp (named op member i found)
    refine (emits_onFirst first).mp ?_
    rw [PirtnProgram.qubitCount, one] at gates
    exact gates op member
  · intro first
    refine ⟨fun op member i named => zero.mpr ((first op member).1 i named), ?_⟩
    intro op member
    rw [PirtnProgram.qubitCount, one]
    exact (emits_onFirst (first op member).1).mpr (first op member)

theorem not_inDeclaredSize_zero (none : p.numTensors = 0) : ¬ InDeclaredSize p c := by
  rintro ⟨named, -⟩
  obtain ⟨nonempty, -, -⟩ := PirtnProgram.lowerToCircuit_ok_iff.mp lowered
  obtain ⟨op, member⟩ := List.exists_mem_of_ne_nil _ nonempty
  obtain ⟨i, found⟩ := exists_mentioned op
  have below := named op member i found
  rw [PirtnProgram.qubitCount, none] at below
  exact Nat.not_lt_zero i below

end Size

/-- A program that was accepted stays inside its declared size when it declares two tensors at least
and reshapes none beyond them, or when it declares one and does not leave it. -/
theorem inDeclaredSize_iff {p : PirtnProgram} {c : Circuit} (lowered : p.lowerToCircuit = .ok c) :
    InDeclaredSize p c ↔
      (2 ≤ p.numTensors ∧ ∀ input shape, .reshape input shape ∈ p.ops → input < p.numTensors) ∨
        (p.numTensors = 1 ∧ ∀ op ∈ p.ops, op.OnFirst) := by
  rcases lt_trichotomy p.numTensors 1 with none | one | many
  · have zero : p.numTensors = 0 := by omega
    refine iff_of_false (not_inDeclaredSize_zero lowered zero) ?_
    omega
  · rw [inDeclaredSize_one lowered one, and_iff_right one]
    exact (or_iff_right (by omega)).symm
  · rw [inDeclaredSize_of_two lowered many, and_iff_right (show 2 ≤ p.numTensors from many)]
    exact (or_iff_left (by omega)).symm

theorem inDeclaredSize_add : ∃ c, PirtnProgram.lowerToCircuit ⟨[.add 0 1 2], 3⟩ = .ok c ∧
    InDeclaredSize ⟨[.add 0 1 2], 3⟩ c :=
  ⟨_, rfl, (inDeclaredSize_iff (p := ⟨[.add 0 1 2], 3⟩) rfl).mpr (.inl ⟨by decide, by simp⟩)⟩

theorem not_inDeclaredSize_single :
    (∃ c, PirtnProgram.lowerToCircuit ⟨[.add 0 0 1], 1⟩ = .ok c ∧
      ¬ InDeclaredSize ⟨[.add 0 0 1], 1⟩ c) ∧
    ∃ c, PirtnProgram.lowerToCircuit ⟨[.reshape 7 []], 3⟩ = .ok c ∧
      ¬ InDeclaredSize ⟨[.reshape 7 []], 3⟩ c := by
  constructor
  · refine ⟨_, rfl, fun sized => ?_⟩
    exact absurd (sized.1 (.add 0 0 1) (by simp) 1 (by decide)) (by decide)
  · refine ⟨_, rfl, fun sized => ?_⟩
    exact absurd (sized.1 (.reshape 7 []) (by simp) 7 (by decide)) (by decide)

end SovereignPirtm.Lowering
