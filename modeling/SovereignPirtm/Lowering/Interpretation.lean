import SovereignPirtm.Lowering.Meaning
import SovereignPirtm.Lowering.Permutation

/-!
# Programs on bits

A program that multiplies no matrices keeps basis states basis states, up to their sign. What each of
its operations does to the bits has a closed form that mentions no gates. A `Contract` changes signs
alone, and a `Permute` moves the contents along the descending runs of its cycles, not along the
permutation.
-/

namespace SovereignPirtm.Lowering
open Library Operator TensorOp

namespace TensorOp

def Settled (n : Nat) : TensorOp → Prop
  | .matMul _ _ _ => False
  | .add a b out => a ≠ out ∧ b ≠ out
  | .contract a b out _ => a ≠ out ∧ b ≠ out
  | .permute _ _ axes => axes.Perm (List.range axes.length) ∧ axes.length ≤ n
  | .scalarMul _ _ _ => True
  | .reshape _ _ => True

instance (n : Nat) : DecidablePred (Settled n)
  | .matMul _ _ _ => isFalse id
  | .add _ _ _ => inferInstanceAs (Decidable (_ ∧ _))
  | .contract _ _ _ _ => inferInstanceAs (Decidable (_ ∧ _))
  | .permute _ _ _ => inferInstanceAs (Decidable (_ ∧ _))
  | .scalarMul _ _ _ => isTrue trivial
  | .reshape _ _ => isTrue trivial

def settle (w : Nat → Bool) : TensorOp → Nat → Bool
  | .add a b out => Function.update w out (w out ^^ w a ^^ w b)
  | .permute _ _ axes => w ∘ alongRun (axisTarget axes) (axisSource axes)
  | .scalarMul tensor out scalar =>
      if scalar = 1 then Function.update w out (w out ^^ w tensor)
      else if scalar = 2 then Function.update w out (w out ^^ !w tensor)
      else w
  | .matMul _ _ _ => w
  | .contract _ _ _ _ => w
  | .reshape _ _ => w

def negates (w : Nat → Bool) : TensorOp → Bool
  | .contract a b out _ => w out && (w a ^^ w b)
  | _ => false

def interpret (s : Bool × (Nat → Bool)) (op : TensorOp) : Bool × (Nat → Bool) :=
  (s.1 ^^ op.negates s.2, op.settle s.2)

end TensorOp

section Meaning
variable (rotation : Nat → UInt64 → Operator (Nat → Bool))

theorem meaning_swaps {n : Nat} {axes : List Nat} {gates : List Gate}
    (swaps : ∀ g ∈ gates, g ∈ swaps n axes) (w : Nat → Bool) :
    meaning rotation gates (basis w) = basis (contents gates w) := by
  induction gates generalizing w with
  | nil => rfl
  | cons g gates ih =>
      rw [List.forall_mem_cons] at swaps
      obtain ⟨i, within, -, rfl⟩ := mem_swaps.mp swaps.1
      rw [meaning, Module.End.mul_apply]
      exact (congrArg _ (exchange_basis _ _ w)).trans (ih swaps.2 _)

/-- A negated control acts when the control is not set. -/
theorem flipBit_toggle_flipBit (control target : Nat) (w : Nat → Bool) :
    flipBit control (toggle control target (flipBit control w)) =
      Function.update w target (w target ^^ !w control) := by
  funext q
  by_cases same : control = target
  · subst same
    by_cases here : q = control
    · simp [toggle_self, flipBit, here]
    · simp [toggle_self, flipBit, here]
  · by_cases here : q = target
    · subst here
      simp [toggle, flipBit, Ne.symm same]
    · by_cases there : q = control
      · subst there
        simp [toggle, flipBit, same]
      · simp [toggle, flipBit, here, there]

theorem contract_basis {a b out : Nat} (left : a ≠ out) (right : b ≠ out) (w : Nat → Bool) :
    Operator.hadamard out
        (Operator.cnot b out (Operator.cnot a out (Operator.hadamard out (basis w)))) =
      signOf (w out && (w a ^^ w b)) • basis w := by
  have first := LinearMap.congr_fun (hadamard_cnot_target right)
  have second := LinearMap.congr_fun (hadamard_cnot_target left)
  have square := LinearMap.congr_fun (hadamard_mul_self out)
  simp only [Module.End.mul_apply, Module.End.one_apply] at first second square
  rw [first, second, square, cz_basis, map_smul, cz_basis, smul_smul, ← signOf_xor]
  congr 2
  cases w a <;> cases w b <;> cases w out <;> rfl

theorem toggle_toggle_add {b out : Nat} (right : b ≠ out) (a : Nat) (w : Nat → Bool) :
    toggle b out (toggle a out w) = Function.update w out (w out ^^ w a ^^ w b) := by
  rw [toggle, toggle, Function.update_self, Function.update_of_ne right, Function.update_idem]

theorem TensorOp.Settled.acts {n : Nat} {op : TensorOp} (settled : op.Settled n)
    (guarded : op.Guarded n) (w : Nat → Bool) :
    meaning rotation ((op.emits n).filter (·.InRegister n)) (basis w) =
      signOf (op.negates w) • basis (op.settle w) := by
  have kept (covered : op.Covered n) : (op.emits n).filter (·.InRegister n) = op.emits n :=
    List.filter_eq_self.mpr fun g member =>
      decide_eq_true ((emits_inRegister_iff guarded).mpr covered g member)
  cases op with
  | matMul a b c => exact settled.elim
  | add a b out =>
      rw [kept trivial, negates, signOf_false, one_smul, settle, ← toggle_toggle_add settled.2]
      exact (congrArg _ (cnot_basis a out w)).trans (cnot_basis b out _)
      all_goals simp
  | contract a b out axis =>
      rw [kept trivial]
      exact contract_basis settled.1 settled.2 w
  | permute input out axes =>
      have covered (i : Nat) (within : i < axes.length) (beyond : n ≤ i) : n ≤ axes[i] :=
        absurd (within.trans_le settled.2) beyond.not_gt
      rw [kept covered, negates, signOf_false, one_smul, settle,
        ← contents_swaps_alongRun settled.1 settled.2]
      · exact meaning_swaps rotation (fun _ member => member) w
      · simp
  | scalarMul tensor out scalar =>
      rw [kept trivial, negates, signOf_false, one_smul, emits, settle]
      split_ifs with one two
      · exact cnot_basis tensor out w
      · have passed : Operator.pauliX tensor (Operator.cnot tensor out
            (Operator.pauliX tensor (basis w))) =
              basis (Function.update w out (w out ^^ !w tensor)) := by
          rw [pauliX_basis, cnot_basis, pauliX_basis, flipBit_toggle_flipBit]
        exact passed
      · rfl
      all_goals simp
  | reshape input shape =>
      rw [kept trivial]
      exact (one_smul ℂ _).symm

theorem meaning_interpret {n : Nat} {ops : List TensorOp} (settled : ∀ op ∈ ops, op.Settled n)
    (guarded : ∀ op ∈ ops, op.Guarded n) (s : Bool × (Nat → Bool)) :
    signOf s.1 • meaning rotation ((ops.flatMap (emits n)).filter (·.InRegister n)) (basis s.2) =
      signOf (ops.foldl interpret s).1 • basis (ops.foldl interpret s).2 := by
  induction ops generalizing s with
  | nil => rfl
  | cons op ops ih =>
      rw [List.forall_mem_cons] at settled guarded
      rw [List.foldl_cons, ← ih settled.2 guarded.2, List.flatMap_cons, List.filter_append,
        meaning_append, Module.End.mul_apply, settled.1.acts rotation guarded.1, map_smul, smul_smul,
        interpret, signOf_xor]

end Meaning

theorem lowered_interpret {p : PirtnProgram} {c : Circuit} (lowered : p.lowerToCircuit = .ok c)
    (settled : ∀ op ∈ p.ops, op.Settled p.width) (rotation : Nat → UInt64 → Operator (Nat → Bool))
    (w : Nat → Bool) : meaning rotation c.gates (basis w) =
      signOf (p.ops.foldl interpret (false, w)).1 • basis (p.ops.foldl interpret (false, w)).2 := by
  obtain ⟨-, guarded, rfl⟩ := PirtnProgram.lowerToCircuit_ok_iff.mp lowered
  rw [← meaning_interpret rotation settled guarded, signOf_false, one_smul]
  rfl

/-- The cycle of three axes only exchanges two of them. -/
theorem alongRun_cycle (q : Nat) :
    alongRun (axisTarget [1, 2, 0]) (axisSource [1, 2, 0]) q = Equiv.swap 1 2 q := by
  by_cases beyond : 3 ≤ q
  · have source : axisSource [1, 2, 0] q = q := if_neg beyond.not_gt
    rw [alongRun, source, if_neg (lt_irrefl q), runEnd_of_le source.ge,
      Equiv.swap_apply_of_ne_of_ne (by omega) (by omega)]
  · have small : q = 0 ∨ q = 1 ∨ q = 2 := by omega
    rcases small with rfl | rfl | rfl
    · simp [alongRun, runEnd, axisSource]
      decide
    · simp [alongRun, runEnd, axisSource, axisTarget]
    · simp [alongRun, runEnd, axisSource, axisTarget]

def cycled : PirtnProgram := ⟨[.permute 0 1 [1, 2, 0], .contract 0 1 2 0, .add 0 1 2], 3⟩

theorem cycled_interpret :
    cycled.ops.foldl interpret (false, (· < 2)) = (true, (· == 0)) := by
  have moved : (fun q => decide (q < 2)) ∘ alongRun (axisTarget [1, 2, 0]) (axisSource [1, 2, 0]) =
      fun q => decide (Equiv.swap 1 2 q < 2) := by
    funext q
    rw [Function.comp_apply, alongRun_cycle]
  simp only [cycled, List.foldl_cons, List.foldl_nil, interpret, negates, settle, moved]
  refine Prod.ext (by decide) (funext fun q => ?_)
  rcases show q = 0 ∨ q = 1 ∨ q = 2 ∨ 3 ≤ q by omega with rfl | rfl | rfl | beyond
  · decide
  · decide
  · decide
  · have kept : Equiv.swap 1 2 q = q := Equiv.swap_apply_of_ne_of_ne (by omega) (by omega)
    have low : decide (q < 2) = (q == 0) := by grind
    have other : q ≠ 2 := by omega
    simp only [Function.update_of_ne other, kept, low]

theorem lowered_interpret_cycled : ∃ c, cycled.lowerToCircuit = .ok c ∧
    ∀ rotation, meaning rotation c.gates (basis (· < 2)) = -1 • basis (· == 0) := by
  refine ⟨_, rfl, fun rotation =>
    (lowered_interpret (p := cycled) rfl (by decide) rotation _).trans ?_⟩
  rw [cycled_interpret]
  simp

end SovereignPirtm.Lowering
