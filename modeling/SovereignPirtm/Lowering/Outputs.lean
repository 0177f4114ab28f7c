import SovereignPirtm.Lowering.Gates

/-!
# What a lowered program leaves behind

Which operations emit a gate, and which of them reach the output that they name.
-/

namespace SovereignPirtm.Lowering
open TensorOp

section Lowered
variable {p : PirtnProgram} {c : Circuit} (lowered : p.lowerToCircuit = .ok c)
include lowered

theorem lowered_validate_iff : c.validate = .ok () ↔ ∃ g, g ∈ c.gates := by
  have unmeasured : c.measurements = [] := by
    obtain ⟨-, -, rfl⟩ := PirtnProgram.lowerToCircuit_ok_iff.mp lowered
    rfl
  rw [Circuit.validate, unmeasured]
  cases c.gates with
  | nil => simp
  | cons g gates => simp

end Lowered

/-! ## Gates at all -/

namespace TensorOp

/-- Neither a reshape nor a permutation that moves nothing. -/
def Substantial : TensorOp → Prop
  | .permute _ _ axes => ∃ i, ∃ within : i < axes.length, axes[i] ≠ i
  | .reshape _ _ => False
  | _ => True

def Visible (n : Nat) : TensorOp → Prop
  | .permute _ _ axes => ∃ i, ∃ within : i < axes.length, i < n ∧ axes[i] < n ∧ axes[i] ≠ i
  | .scalarMul _ _ scalar => scalar = 1 ∨ scalar = 2
  | .reshape _ _ => False
  | _ => True

end TensorOp

theorem emits_visible_iff {n : Nat} {op : TensorOp} (guarded : op.Guarded n) :
    (∃ g, g ∈ op.emits n ∧ g.InRegister n) ↔ op.Visible n := by
  cases op with
  | permute input out axes =>
      constructor
      · rintro ⟨g, emitted, inside⟩
        obtain ⟨i, within, ⟨moves, target⟩, rfl⟩ := mem_swaps.mp emitted
        exact ⟨i, within, inside ⟨i⟩ List.mem_cons_self, target, moves.symm⟩
      · rintro ⟨i, within, position, target, moves⟩
        refine ⟨_, mem_swaps.mpr ⟨i, within, ⟨moves.symm, target⟩, rfl⟩, ?_⟩
        simp [Gate.InRegister, Gate.qubits, position, target]
  | scalarMul tensor out scalar =>
      simp only [Guarded, TensorOp.guarded, List.forall_mem_cons] at guarded
      simp only [Visible, emits]
      split_ifs <;> simp_all [Gate.InRegister, Gate.qubits]
  | reshape input shape => simp [Visible, emits]
  | _ => simp_all [Guarded, TensorOp.guarded, Visible, emits, Gate.InRegister, Gate.qubits]

/-- A program with something to lower becomes a valid circuit when one of its operations emits a gate
inside the register. Multiplications by other scalars than one and two emit none. -/
theorem lowered_valid_iff {p : PirtnProgram} {c : Circuit} (lowered : p.lowerToCircuit = .ok c) :
    ((∃ op ∈ p.ops, op.Substantial) → c.validate = .ok ()) ↔
      ((∃ op ∈ p.ops, op.Substantial) → ∃ op ∈ p.ops, op.Visible p.width) := by
  have guarded := (PirtnProgram.lowerToCircuit_ok_iff.mp lowered).2.1
  have visible : c.validate = .ok () ↔ ∃ op ∈ p.ops, op.Visible p.width := by
    rw [lowered_validate_iff lowered]
    simp only [mem_gates_iff lowered]
    constructor
    · rintro ⟨g, op, member, gate⟩
      exact ⟨op, member, (emits_visible_iff (guarded op member)).mp ⟨g, gate⟩⟩
    · rintro ⟨op, member, seen⟩
      obtain ⟨g, gate⟩ := (emits_visible_iff (guarded op member)).mpr seen
      exact ⟨g, op, member, gate⟩
  rw [visible]

theorem lowered_valid_twice : ∃ c, PirtnProgram.lowerToCircuit ⟨[.scalarMul 0 1 2], 2⟩ = .ok c ∧
    c.validate = .ok () :=
  ⟨_, rfl, (lowered_valid_iff (p := ⟨[.scalarMul 0 1 2], 2⟩) rfl).mpr
    (fun _ => ⟨_, List.mem_cons_self, .inr rfl⟩) ⟨_, List.mem_cons_self, trivial⟩⟩

theorem lowered_not_valid_thrice :
    (TensorOp.scalarMul 0 1 3).Substantial ∧
      ∃ c, PirtnProgram.lowerToCircuit ⟨[.scalarMul 0 1 3], 2⟩ = .ok c ∧
        c.validate = .error .emptyCircuit :=
  ⟨trivial, _, rfl, rfl⟩

/-! ## Outputs -/

def TensorOp.output : TensorOp → Option Nat
  | .matMul _ _ c => some c
  | .add _ _ out => some out
  | .contract _ _ out _ => some out
  | _ => none

def Gate.Reaches (out : Nat) : Gate → Prop
  | .double _ _ target => target.index = out
  | _ => False

instance (out : Nat) : DecidablePred (Gate.Reaches out)
  | .double _ _ target => inferInstanceAs (Decidable (target.index = out))
  | .single _ _ => isFalse id
  | .rotation _ _ => isFalse id

theorem emits_reaches_iff {n : Nat} {op : TensorOp} {out : Nat} (guarded : op.Guarded n)
    (names : op.output = some out) :
    (∃ g ∈ (op.emits n).filter (·.InRegister n), g.Reaches out) ↔
      ∀ a b c, op = .matMul a b c → b = c := by
  cases op with
  | matMul | add | contract =>
      obtain rfl := Option.some.inj names
      simp_all [Guarded, TensorOp.guarded, emits, Gate.InRegister, Gate.qubits, Gate.Reaches]
  | _ => cases names

/-- Every operation reaches its output when each matrix product is written over its second factor. -/
theorem outputs_reached_iff {p : PirtnProgram} {c : Circuit} (lowered : p.lowerToCircuit = .ok c) :
    (∀ k op out, p.ops[k]? = some op → op.output = some out →
        ∃ g ∈ p.emittedAt k, g.Reaches out) ↔
      ∀ a b c, .matMul a b c ∈ p.ops → b = c := by
  have guarded := (PirtnProgram.lowerToCircuit_ok_iff.mp lowered).2.1
  constructor
  · intro reached a b c member
    obtain ⟨k, found⟩ := List.mem_iff_getElem?.mp member
    have gate := reached k _ c found rfl
    rw [PirtnProgram.emittedAt_eq guarded found] at gate
    exact (emits_reaches_iff (guarded _ member) rfl).mp gate a b c rfl
  · intro inPlace k op out found names
    have member := List.mem_of_getElem? found
    rw [PirtnProgram.emittedAt_eq guarded found]
    refine (emits_reaches_iff (guarded op member) names).mpr ?_
    rintro a b c rfl
    exact inPlace a b c member

theorem outputs_reached_add : ∃ g ∈ PirtnProgram.emittedAt ⟨[.add 0 1 2], 3⟩ 0, g.Reaches 2 :=
  (outputs_reached_iff (p := ⟨[.add 0 1 2], 3⟩) rfl).mpr (by simp) 0 (.add 0 1 2) 2 rfl rfl

theorem outputs_not_reached_matMul :
    (∃ c, PirtnProgram.lowerToCircuit ⟨[.matMul 0 1 2], 3⟩ = .ok c) ∧
      ¬ ∃ g ∈ PirtnProgram.emittedAt ⟨[.matMul 0 1 2], 3⟩ 0, g.Reaches 2 := by
  exact ⟨⟨_, rfl⟩, by decide⟩

end SovereignPirtm.Lowering
