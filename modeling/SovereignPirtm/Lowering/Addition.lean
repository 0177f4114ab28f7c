import SovereignPirtm.Library.Parity
import SovereignPirtm.Library.Transition
import SovereignPirtm.Lowering.Gates

/-!
# Additions on basis states

`Add` is documented as an assignment, and lowered to two `CNOT`s, which accumulate. The two agree as
long as what the outputs held before cancels out.
-/

namespace SovereignPirtm.Lowering
open Library TensorOp
open scoped symmDiff

/-! ## Basis states -/

/-- The basis state that a gate takes a basis state to, up to a phase. A Hadamard and a rotation
leave the basis. -/
def Gate.onBasis (w : Nat → Bool) : Gate → Option (Nat → Bool)
  | .single .hadamard _ => none
  | .single .pauliX target => some (Function.update w target.index (!w target.index))
  | .single .pauliY target => some (Function.update w target.index (!w target.index))
  | .single _ _ => some w
  | .double .cnot control target =>
      some (Function.update w target.index (w target.index ^^ w control.index))
  | .double .cz _ _ => some w
  | .double .swap control target => some (w ∘ Equiv.swap control.index target.index)
  | .rotation _ _ => none

/-- `out = A + B` modulo 2. -/
def TensorOp.assign (w : Nat → Bool) : TensorOp → Option (Nat → Bool)
  | .add a b out => some (Function.update w out (w a ^^ w b))
  | _ => none

def TensorOp.IsAdd (n : Nat) : TensorOp → Prop
  | .add a b out => a < n ∧ b < n ∧ out < n ∧ a ≠ b ∧ a ≠ out ∧ b ≠ out
  | _ => False

instance (n : Nat) : DecidablePred (IsAdd n)
  | .add _ _ _ => inferInstanceAs (Decidable (_ ∧ _))
  | .matMul _ _ _ => isFalse id
  | .contract _ _ _ _ => isFalse id
  | .permute _ _ _ => isFalse id
  | .scalarMul _ _ _ => isFalse id
  | .reshape _ _ => isFalse id

def TensorOp.accumulate (w : Nat → Bool) : TensorOp → (Nat → Bool)
  | .add a b out => Function.update w out (w out ^^ w a ^^ w b)
  | _ => w

/-! ## What the outputs held -/

/-- For every wire, the starting wires whose bits it has collected, and those whose bits an
assignment would have discarded. -/
structure Trail where
  held : Nat → Finset Nat
  stale : Nat → Finset Nat

namespace Trail

def start : Trail := ⟨fun q => {q}, fun _ => ∅⟩

def step (t : Trail) : TensorOp → Trail
  | .add a b out =>
      { held := Function.update t.held out (t.held out ∆ t.held a ∆ t.held b)
        stale := Function.update t.stale out (t.held out ∆ t.stale a ∆ t.stale b) }
  | _ => t

end Trail

def stale (ops : List TensorOp) : Nat → Finset Nat := (ops.foldl Trail.step .start).stale

section Run
variable {n : Nat} {op : TensorOp} (add : op.IsAdd n)
include add

theorem TensorOp.IsAdd.guarded : op.Guarded n := by
  cases op with
  | add a b out => simp [Guarded, TensorOp.guarded, add.1, add.2.1, add.2.2.1]
  | _ => exact add.elim

theorem TensorOp.IsAdd.covered : op.Covered n := by
  cases op with
  | add a b out => trivial
  | _ => exact add.elim

theorem TensorOp.IsAdd.lowered (w : Nat → Bool) :
    run Gate.onBasis w (op.emits n) = some (op.accumulate w) := by
  cases op with
  | add a b out =>
      obtain ⟨-, -, -, -, -, different⟩ := add
      simp [emits, run_cons, Gate.onBasis, accumulate, Function.update_of_ne different]
  | _ => exact add.elim

theorem TensorOp.IsAdd.assigned (w : Nat → Bool) : ∃ v, op.assign w = some v := by
  cases op with
  | add a b out => exact ⟨_, rfl⟩
  | _ => exact add.elim

structure Trail.Follows (t : Trail) (w u v : Nat → Bool) : Prop where
  held : ∀ q, parity w (t.held q) = u q
  stale : ∀ q, parity w (t.stale q) = (u q ^^ v q)

end Run

theorem Trail.Follows.step {n : Nat} {op : TensorOp} (add : op.IsAdd n) {t : Trail}
    {w u v v' : Nat → Bool} (follows : t.Follows w u v) (assigned : op.assign v = some v') :
    (t.step op).Follows w (op.accumulate u) v' := by
  cases op with
  | add a b out =>
      obtain rfl := Option.some.inj assigned
      constructor
      · intro q
        by_cases written : q = out
        · subst written
          simp [Trail.step, accumulate, follows.held]
        · simp [Trail.step, accumulate, written, follows.held]
      · intro q
        by_cases written : q = out
        · subst written
          have regroup : ∀ x u₁ v₁ u₂ v₂ : Bool,
              (x ^^ (u₁ ^^ v₁) ^^ (u₂ ^^ v₂)) = ((x ^^ u₁ ^^ u₂) ^^ (v₁ ^^ v₂)) := by decide
          simp only [Trail.step, accumulate, Function.update_self, parity_symmDiff, follows.held,
            follows.stale]
          exact regroup _ _ _ _ _
        · simp [Trail.step, accumulate, written, follows.stale]
  | _ => exact add.elim

section Program
variable {n : Nat} {ops : List TensorOp} (adds : ∀ op ∈ ops, op.IsAdd n)
include adds

theorem run_lowered (w : Nat → Bool) :
    run Gate.onBasis w (ops.flatMap (emits n)) = some (ops.foldl accumulate w) := by
  induction ops generalizing w with
  | nil => rfl
  | cons op ops ih =>
      rw [List.forall_mem_cons] at adds
      rw [List.flatMap_cons, run_append, adds.1.lowered w, Option.bind_some, ih adds.2,
        List.foldl_cons]

theorem run_assigned (w : Nat → Bool) : ∃ v, run assign w ops = some v ∧
    (ops.foldl Trail.step .start).Follows w (ops.foldl accumulate w) v := by
  induction ops using List.reverseRecOn with
  | nil => exact ⟨w, rfl, ⟨by simp [Trail.start], by simp [Trail.start]⟩⟩
  | append_singleton ops op ih =>
      rw [List.forall_mem_append, List.forall_mem_singleton] at adds
      obtain ⟨v, ran, follows⟩ := ih adds.1
      obtain ⟨v', assigned⟩ := adds.2.assigned v
      refine ⟨v', run_concat_iff.mpr ⟨v, ran, assigned⟩, ?_⟩
      rw [List.foldl_concat, List.foldl_concat]
      exact follows.step adds.2 assigned

theorem kept_lowered : (ops.flatMap (emits n)).filter (·.InRegister n) = ops.flatMap (emits n) := by
  refine List.filter_eq_self.mpr fun g member => decide_eq_true ?_
  obtain ⟨op, inside, emitted⟩ := List.mem_flatMap.mp member
  have add := adds op inside
  exact (emits_inRegister_iff add.guarded).mpr add.covered g emitted

end Program

/-- The lowered circuit does what the assignments say exactly when on every wire evenly many of the
starting bits left over are set. -/
theorem add_preserved_iff {p : PirtnProgram} (nonempty : p.ops ≠ [])
    (adds : ∀ op ∈ p.ops, op.IsAdd p.width) (w : Nat → Bool) :
    ∃ c u v, p.lowerToCircuit = .ok c ∧ run Gate.onBasis w c.gates = some u ∧
      run assign w p.ops = some v ∧
      ((∀ q < p.width, u q = v q) ↔ ∀ q < p.width, parity w (stale p.ops q) = false) := by
  obtain ⟨v, assigned, follows⟩ := run_assigned adds w
  have lowered := PirtnProgram.lowerToCircuit_ok_iff.mpr
    ⟨nonempty, fun op member => (adds op member).guarded, rfl⟩
  refine ⟨_, p.ops.foldl accumulate w, v, lowered, ?_, assigned, ?_⟩
  · rw [Emission.of, kept_lowered adds]
    exact run_lowered adds w
  · refine forall₂_congr fun q _ => ?_
    rw [stale, follows.stale, bne_eq_false_iff_eq]

theorem add_preserved_clean : ∃ c u v,
    PirtnProgram.lowerToCircuit ⟨[.add 0 1 2, .add 2 0 3], 4⟩ = .ok c ∧
      run Gate.onBasis (· == 0) c.gates = some u ∧
      run assign (· == 0) [.add 0 1 2, .add 2 0 3] = some v ∧ ∀ q < 4, u q = v q := by
  obtain ⟨c, u, v, lowered, ran, assigned, same⟩ :=
    add_preserved_iff (p := ⟨[.add 0 1 2, .add 2 0 3], 4⟩) (by decide) (by decide) (· == 0)
  exact ⟨c, u, v, lowered, ran, assigned, same.mpr (by decide)⟩

theorem add_not_preserved_dirty : ∃ c u v,
    PirtnProgram.lowerToCircuit ⟨[.add 0 1 2], 3⟩ = .ok c ∧
      run Gate.onBasis (· == 2) c.gates = some u ∧
      run assign (· == 2) [.add 0 1 2] = some v ∧ u 2 = true ∧ v 2 = false :=
  ⟨_, _, _, rfl, rfl, rfl, by decide, by decide⟩

/-! ## Outputs that are written once -/

def outputs (ops : List TensorOp) : List Nat :=
  ops.filterMap fun op => match op with
    | .add _ _ out => some out
    | _ => none

section Once
variable {n : Nat} {ops : List TensorOp} (adds : ∀ op ∈ ops, op.IsAdd n)
include adds

theorem unwritten {q : Nat} (unwritten : q ∉ outputs ops) :
    (ops.foldl Trail.step .start).held q = {q} ∧ stale ops q = ∅ := by
  induction ops using List.reverseRecOn with
  | nil => exact ⟨rfl, rfl⟩
  | append_singleton ops op ih =>
      rw [List.forall_mem_append, List.forall_mem_singleton] at adds
      rw [outputs, List.filterMap_append, List.mem_append, not_or] at unwritten
      obtain ⟨held, clean⟩ := ih adds.1 unwritten.1
      rw [stale] at clean
      rw [stale, List.foldl_concat]
      cases op with
      | add a b out =>
          have other : q ≠ out := by simpa using unwritten.2
          simp [Trail.step, Function.update_of_ne other, held, clean]
      | _ => exact adds.2.elim

theorem stale_even_iff (once : (outputs ops).Nodup) (w : Nat → Bool) :
    (∀ q, parity w (stale ops q) = false) ↔ ∀ out ∈ outputs ops, w out = false := by
  induction ops using List.reverseRecOn with
  | nil => simp [stale, Trail.start, outputs]
  | append_singleton ops op ih =>
      rw [List.forall_mem_append, List.forall_mem_singleton] at adds
      rw [outputs, List.filterMap_append, List.nodup_append] at once
      cases op with
      | add a b out =>
          have fresh : out ∉ outputs ops := fun member => once.2.2 out member out (by simp) rfl
          obtain ⟨held, clean⟩ := unwritten adds.1 fresh
          have earlier := ih adds.1 once.1
          have last : stale (ops ++ [.add a b out]) =
              Function.update (stale ops) out ({out} ∆ stale ops a ∆ stale ops b) := by
            rw [stale, List.foldl_concat, Trail.step, held, stale]
          rw [outputs, List.filterMap_append, List.forall_mem_append, ← outputs, ← earlier, last]
          constructor
          · intro even
            have others (q : Nat) : parity w (stale ops q) = false := by
              by_cases written : q = out
              · rw [written, clean, parity_empty]
              · simpa [written] using even q
            exact ⟨others, by simpa [others] using even out⟩
          · rintro ⟨others, zero⟩ q
            by_cases written : q = out
            · simpa [written, others] using zero
            · simpa [written] using others q
      | _ => exact adds.2.elim

end Once
end SovereignPirtm.Lowering
