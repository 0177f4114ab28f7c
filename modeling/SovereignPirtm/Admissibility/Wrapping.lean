import SovereignPirtm.Admissibility.Soundness

/-!
# Successors and boundaries

How far up the bound on successors reaches, and what becomes of successors and boundaries that are
written as calls.
-/

namespace SovereignPirtm.Admissibility
open Library ExprNode

/-! ## Towers of successors -/

def tower : Nat → UInt64 → ExprNode
  | 0, value => .literal value
  | k+1, value => .successor (some (tower k value))

theorem validate_successor_ok_iff (x : ExprNode) :
    (validate (.successor (some x))).ok = true ↔
      (validate x).ok = true ∧ (ExprNode.successor (some x)).Obeys := by
  rw [validate, validateExpr, checkSuccessorInner_ok_iff]
  rfl

theorem tower_ok_iff (k : Nat) (value : UInt64) :
    (validate (tower (k+1) value)).ok = true ↔ value.toNat ≤ 2 ^ 63 - 1 := by
  induction k with
  | zero =>
      have literal : (validate (.literal value)).ok = true := rfl
      rw [tower, tower, validate_successor_ok_iff, and_iff_right literal]
      simp [Obeys, literalAbove]
  | succ k ih =>
      rw [tower, validate_successor_ok_iff, ih, and_iff_left]
      simp [tower, Obeys, literalAbove]

/-- The bound holds for the literal at the bottom, however high the tower. -/
theorem tower_range_iff (k : Nat) (value : UInt64) (positive : 1 ≤ k) :
    ((validate (tower k value)).ok = true ↔ value.toNat + k ≤ 2 ^ 63 - 1) ↔
      value.toNat + k ≤ 2 ^ 63 - 1 ∨ 2 ^ 63 - 1 < value.toNat := by
  obtain ⟨k, rfl⟩ := Nat.exists_eq_add_of_le' positive
  rw [tower_ok_iff]
  omega

theorem tower_range_small :
    (validate (tower 3 5)).ok = true ↔ (5 : UInt64).toNat + 3 ≤ 2 ^ 63 - 1 :=
  (tower_range_iff 3 5 (by decide)).mpr (.inl (by decide))

theorem tower_out_of_range :
    ¬ ((validate (tower 1 9223372036854775807)).ok = true ↔
      (9223372036854775807 : UInt64).toNat + 1 ≤ 2 ^ 63 - 1) := by
  decide

/-! ## Calls -/

/-- The constructs that exist both as a node and as a call. -/
inductive Wrapper where
  | successor
  | stratumBoundary

namespace Wrapper

def callName : Wrapper → Bytes
  | .successor => str "succ"
  | .stratumBoundary => str "stratum_boundary"

def node : Wrapper → ExprNode → ExprNode
  | .successor, x => .successor (some x)
  | .stratumBoundary, x => .stratumBoundary (some x)

/-- One argument is accepted by the call exactly when it is by the node, any other number of them is
rejected. -/
def Agrees (w : Wrapper) : List ExprNode → Prop
  | [x] => (validate (.call w.callName [x])).ok = true ↔ (validate (w.node x)).ok = true
  | args => (validate (.call w.callName args)).ok = false

theorem validate_call_ok (w : Wrapper) (args : List ExprNode) :
    (validate (.call w.callName args)).ok = true := by
  have known : w.callName ∈ validFuncs := by
    cases w <;> decide
  have other : w.callName ≠ str "Ap" := by
    cases w <;> decide
  rw [validate, validateExpr, checkCall_ok_iff]
  exact ⟨rfl, known, fun ap => absurd ap other⟩

/-- The call agrees with the node only where the node is accepted: a call is never rejected. -/
theorem agrees_iff (w : Wrapper) (args : List ExprNode) :
    w.Agrees args ↔ ∃ x, args = [x] ∧ ∀ n, Visited (w.node x) n → n.Obeys := by
  match args with
  | [x] =>
      rw [Agrees, iff_true_left (w.validate_call_ok [x]), validate_ok_iff]
      simp
  | [] => simp [Agrees, validate_call_ok]
  | x :: y :: args => simp [Agrees, validate_call_ok]

theorem not_agrees_zero :
    ¬ Wrapper.stratumBoundary.Agrees [.literal 0] ∧ ¬ Wrapper.successor.Agrees [] := by
  constructor
  · intro agrees
    exact absurd (agrees.mp (by decide)) (by decide)
  · intro agrees
    have accepted := successor.validate_call_ok []
    rw [show (validate (.call successor.callName [])).ok = false from agrees] at accepted
    cases accepted

end Wrapper
end SovereignPirtm.Admissibility
