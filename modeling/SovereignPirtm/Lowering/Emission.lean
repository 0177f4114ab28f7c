import SovereignPirtm.Lowering.Program

/-!
# What a lowering emits

The gates that each operation tries to add, and what is left of them: a circuit of `n` qubits takes
the gates whose qubits are below `n`, and drops the others.
-/

namespace SovereignPirtm.Lowering

/-! ## Adding gates -/

namespace Gate

def qubits : Gate → List Qubit
  | .single _ target => [target]
  | .double _ control target => [control, target]
  | .rotation target _ => [target]

def InRegister (n : Nat) (g : Gate) : Prop := ∀ q ∈ g.qubits, q.index < n

instance (n : Nat) : DecidablePred (InRegister n) :=
  fun g => inferInstanceAs (Decidable (∀ q ∈ g.qubits, q.index < n))

end Gate

theorem Qubit.check_ok_iff {n : Nat} {q : Qubit} : q.check n = .ok () ↔ q.index < n := by
  unfold Qubit.check
  split
  · rename_i outside
    simpa using outside
  · rename_i inside
    simpa using inside

theorem Gate.check_ok_iff {n : Nat} {g : Gate} : g.check n = .ok () ↔ g.InRegister n := by
  cases g with
  | single gate target => simp [check, InRegister, qubits, Qubit.check_ok_iff]
  | double gate control target =>
      simp only [check, InRegister, qubits, List.forall_mem_cons, List.not_mem_nil, false_implies,
        implies_true, and_true, ← Qubit.check_ok_iff]
      cases control.check n with
      | error e => simp [bind, Except.bind]
      | ok => simp [bind, Except.bind]
  | rotation target angle => simp [check, InRegister, qubits, Qubit.check_ok_iff]

theorem Circuit.addGate_eq (c : Circuit) (g : Gate) :
    c.addGate g = (g.check c.numQubits,
      if g.InRegister c.numQubits then { c with gates := c.gates ++ [g] } else c) := by
  rw [addGate]
  split
  · rename_i e rejected
    rw [if_neg, rejected]
    rw [← Gate.check_ok_iff, rejected]
    simp
  · rename_i accepted
    rw [if_pos (Gate.check_ok_iff.mp accepted), accepted]

namespace Emission

def emitAll (s : Emission) (gates : List Gate) : Emission := gates.foldl emit s

theorem emitAll_append (s : Emission) (first second : List Gate) :
    s.emitAll (first ++ second) = (s.emitAll first).emitAll second :=
  List.foldl_append

theorem emitAll_eq (s : Emission) (gates : List Gate) :
    s.emitAll gates =
      { circuit := { s.circuit with
          gates := s.circuit.gates ++ gates.filter (·.InRegister s.circuit.numQubits) }
        discarded := s.discarded ++ gates.map (·.check s.circuit.numQubits) } := by
  induction gates generalizing s with
  | nil => simp [emitAll]
  | cons g gates ih =>
      rw [emitAll, List.foldl_cons, ← emitAll, ih, emit, Circuit.addGate_eq]
      by_cases inside : g.InRegister s.circuit.numQubits
      · simp [inside]
      · simp [inside]

end Emission

/-! ## Operations -/

namespace TensorOp

def swaps (n : Nat) (axes : List Nat) : List Gate :=
  axes.zipIdx.filterMap fun (target, i) =>
    if i ≠ target ∧ target < n then some (.double .swap ⟨i⟩ ⟨target⟩) else none

def emits (n : Nat) : TensorOp → List Gate
  | .matMul a b _ => [.single .hadamard ⟨a⟩, .double .cnot ⟨a⟩ ⟨b⟩, .single .hadamard ⟨a⟩]
  | .add a b out => [.double .cnot ⟨a⟩ ⟨out⟩, .double .cnot ⟨b⟩ ⟨out⟩]
  | .contract a b out _ => [.single .hadamard ⟨out⟩, .double .cnot ⟨a⟩ ⟨out⟩,
      .double .cnot ⟨b⟩ ⟨out⟩, .single .hadamard ⟨out⟩]
  | .permute _ _ axes => swaps n axes
  | .scalarMul tensor out scalar =>
      if scalar = 1 then [.double .cnot ⟨tensor⟩ ⟨out⟩]
      else if scalar = 2 then
        [.single .pauliX ⟨tensor⟩, .double .cnot ⟨tensor⟩ ⟨out⟩, .single .pauliX ⟨tensor⟩]
      else []
  | .reshape _ _ => []

def guarded : TensorOp → List Nat
  | .matMul a b c => [a, b, c]
  | .add a b out => [a, b, out]
  | .contract a b out _ => [a, b, out]
  | .permute input out _ => [input, out]
  | .scalarMul tensor out _ => [tensor, out]
  | .reshape _ _ => []

def Guarded (n : Nat) (op : TensorOp) : Prop := ∀ i ∈ op.guarded, i < n

instance (n : Nat) : DecidablePred (Guarded n) :=
  fun op => inferInstanceAs (Decidable (∀ i ∈ op.guarded, i < n))

end TensorOp

open TensorOp

theorem emitSwaps_eq (n : Nat) (s : Emission) (axes : List Nat) :
    emitSwaps n s axes = s.emitAll (swaps n axes) := by
  unfold emitSwaps swaps
  generalize axes.zipIdx = entries
  induction entries generalizing s with
  | nil => rfl
  | cons entry entries ih =>
      obtain ⟨target, i⟩ := entry
      rw [List.foldl_cons, ih]
      by_cases moves : i ≠ target ∧ target < n
      · simp only [moves, if_true, List.filterMap_cons, ne_eq, not_false_eq_true, and_self]
        rfl
      · simp only [moves, if_false, List.filterMap_cons]

theorem lowerOp_eq (n : Nat) (s : Emission) (op : TensorOp) :
    lowerOp n s op =
      if op.Guarded n then .ok (s.emitAll (op.emits n)) else .error (.qubitOutOfBounds n) := by
  have three {a b c : Nat} : a ≥ n ∨ b ≥ n ∨ c ≥ n ↔ ¬ ∀ i ∈ [a, b, c], i < n := by
    simp [imp_iff_not_or]
  have two {a b : Nat} : a ≥ n ∨ b ≥ n ↔ ¬ ∀ i ∈ [a, b], i < n := by
    simp [imp_iff_not_or]
  cases op with
  | matMul a b c =>
      rw [lowerOp, if_congr three rfl rfl, ite_not]
      rfl
  | add a b out =>
      rw [lowerOp, if_congr three rfl rfl, ite_not]
      rfl
  | contract a b out axis =>
      rw [lowerOp, if_congr three rfl rfl, ite_not]
      rfl
  | permute input out axes =>
      rw [lowerOp, if_congr two rfl rfl, ite_not, emitSwaps_eq]
      rfl
  | scalarMul tensor out scalar =>
      rw [lowerOp, if_congr two rfl rfl, ite_not, emits]
      refine if_congr Iff.rfl ?_ rfl
      split_ifs <;> rfl
  | reshape input shape =>
      rw [if_pos (by simp [Guarded, guarded])]
      rfl

/-! ## Programs -/

def Emission.of (n : Nat) (gates : List Gate) : Emission :=
  { circuit := { Circuit.new n n with gates := gates.filter (·.InRegister n) }
    discarded := gates.map (·.check n) }

theorem foldlM_lowerOp_ok_iff {n : Nat} {ops : List TensorOp} {s finish : Emission} :
    ops.foldlM (lowerOp n) s = .ok finish ↔
      (∀ op ∈ ops, op.Guarded n) ∧ finish = s.emitAll (ops.flatMap (emits n)) := by
  induction ops generalizing s with
  | nil => simp [Emission.emitAll, pure, Except.pure, eq_comm]
  | cons op ops ih =>
      rw [List.foldlM_cons, lowerOp_eq, List.forall_mem_cons, List.flatMap_cons,
        Emission.emitAll_append]
      by_cases inside : op.Guarded n
      · rw [if_pos inside, and_iff_right inside, ← ih]
        rfl
      · rw [if_neg inside]
        simp [inside, bind, Except.bind]

theorem lowerOps_ok_iff {n : Nat} {ops : List TensorOp} {s : Emission} :
    lowerOps n ops = .ok s ↔ (∀ op ∈ ops, op.Guarded n) ∧ s = .of n (ops.flatMap (emits n)) := by
  rw [lowerOps, foldlM_lowerOp_ok_iff, Emission.emitAll_eq]
  rfl

namespace PirtnProgram
variable {p : PirtnProgram}

theorem lowering_ok_iff {s : Emission} : p.lowering = .ok s ↔
    p.ops ≠ [] ∧ (∀ op ∈ p.ops, op.Guarded p.width) ∧
      s = .of p.width (p.ops.flatMap (emits p.width)) := by
  rw [lowering]
  split
  · rename_i nothing
    simp [List.isEmpty_iff.mp nothing]
  · rename_i filled
    have nonempty : p.ops ≠ [] := by simpa [List.isEmpty_iff] using filled
    exact lowerOps_ok_iff.trans (and_iff_right nonempty).symm

theorem lowerToCircuit_ok_iff {c : Circuit} : p.lowerToCircuit = .ok c ↔
    p.ops ≠ [] ∧ (∀ op ∈ p.ops, op.Guarded p.width) ∧
      c = (Emission.of p.width (p.ops.flatMap (emits p.width))).circuit := by
  constructor
  · intro lowered
    unfold lowerToCircuit at lowered
    cases result : p.lowering with
    | error e => simp [result, Except.map] at lowered
    | ok s =>
        obtain ⟨nonempty, guarded, rfl⟩ := lowering_ok_iff.mp result
        rw [result] at lowered
        exact ⟨nonempty, guarded, (Except.ok.inj lowered).symm⟩
  · rintro ⟨nonempty, guarded, rfl⟩
    rw [lowerToCircuit, lowering_ok_iff.mpr ⟨nonempty, guarded, rfl⟩]
    rfl

/-- The gates that step `k` of the loop over the operations adds to the circuit. -/
def emittedAt (p : PirtnProgram) (k : Nat) : List Gate :=
  match lowerOps p.width (p.ops.take k), lowerOps p.width (p.ops.take (k+1)) with
  | .ok before, .ok after => after.circuit.gates.drop before.circuit.gates.length
  | _, _ => []

theorem emittedAt_eq (guarded : ∀ op ∈ p.ops, op.Guarded p.width) {k : Nat} {op : TensorOp}
    (found : p.ops[k]? = some op) :
    p.emittedAt k = (op.emits p.width).filter (·.InRegister p.width) := by
  obtain ⟨within, rfl⟩ := List.getElem?_eq_some_iff.mp found
  have prefix_ok (j : Nat) : lowerOps p.width (p.ops.take j) =
      .ok (.of p.width ((p.ops.take j).flatMap (emits p.width))) :=
    lowerOps_ok_iff.mpr ⟨fun op member => guarded op (List.mem_of_mem_take member), rfl⟩
  rw [emittedAt, prefix_ok, prefix_ok, List.take_succ_eq_append_getElem within]
  simp only [Emission.of, List.flatMap_append, List.flatMap_singleton, List.filter_append,
    List.drop_left]

end PirtnProgram
end SovereignPirtm.Lowering
