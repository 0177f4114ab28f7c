import SovereignPirtm.Library.Tree
import SovereignPirtm.Admissibility.Validator

/-!
# What an accepted tree obeys

The rules of the validator for a single node, the nodes that it visits, and the nodes it leaves out:
everything below the operands of a `Binary` and the arguments of a `Call`.
-/

namespace SovereignPirtm.Admissibility
open Library

/-! ## Trees -/

namespace ExprNode

def children : ExprNode → List ExprNode
  | .binary _ operands => operands
  | .call _ args => args
  | .ifThenElse cond thenBranch elseBranch => cond.toList ++ thenBranch ++ elseBranch
  | .successor inner => inner.toList
  | .stratumBoundary inner => inner.toList
  | _ => []

def descended : ExprNode → List ExprNode
  | .binary _ _ => []
  | .call _ _ => []
  | e => e.children

def literalAbove (bound : Nat) : ExprNode → Bool
  | .literal v => decide (bound < v.toNat)
  | _ => false

def Obeys : ExprNode → Prop
  | .atom primeIndex => 2 ≤ primeIndex
  | .binary op operands => op ∈ validOps ∧ operands.length = 2 ∧
      ¬ (op = str "div" ∧ operands[1]?.any (isLiteral 0))
  | .call name args => name ∈ validFuncs ∧ (name = str "Ap" → args.length = 1)
  | .stratumBoundary inner => ¬ inner.any (isLiteral 0)
  | .successor inner => ¬ inner.any (literalAbove (2 ^ 63 - 1))
  | _ => True

instance : DecidablePred Obeys
  | .literal _ => isTrue trivial
  | .ident _ => isTrue trivial
  | .atom _ => inferInstanceAs (Decidable (_ ≤ _))
  | .binary _ _ => inferInstanceAs (Decidable (_ ∧ _))
  | .call _ _ => inferInstanceAs (Decidable (_ ∧ _))
  | .ifThenElse _ _ _ => isTrue trivial
  | .successor _ => inferInstanceAs (Decidable (¬ _))
  | .stratumBoundary _ => inferInstanceAs (Decidable (¬ _))

abbrev Within (e n : ExprNode) : Prop := Occurs children e n

abbrev Visited (e n : ExprNode) : Prop := Occurs descended e n

theorem descended_subset (e : ExprNode) : e.descended ⊆ e.children := by
  cases e with
  | binary op operands => exact List.nil_subset _
  | call name args => exact List.nil_subset _
  | _ => exact List.Subset.refl _

theorem sizeOf_lt_of_mem_children {e c : ExprNode} (member : c ∈ e.children) :
    sizeOf c < sizeOf e := by
  have maybe {o : Option ExprNode} (inside : c ∈ o.toList) : sizeOf c < sizeOf o := by
    rw [Option.mem_toList] at inside
    subst inside
    simp
  cases e with
  | literal _ => cases member
  | ident _ => cases member
  | atom _ => cases member
  | binary op operands =>
      have smaller : sizeOf c < sizeOf operands := List.sizeOf_lt_of_mem member
      simp
      omega
  | call name args =>
      have smaller : sizeOf c < sizeOf args := List.sizeOf_lt_of_mem member
      simp
      omega
  | ifThenElse cond thenBranch elseBranch =>
      rcases List.mem_append.mp member with front | inElse
      · rcases List.mem_append.mp front with inCond | inThen
        · have smaller := maybe inCond
          simp
          omega
        · have smaller := List.sizeOf_lt_of_mem inThen
          simp
          omega
      · have smaller := List.sizeOf_lt_of_mem inElse
        simp
        omega
  | successor inner =>
      have smaller := maybe member
      simp
      omega
  | stratumBoundary inner =>
      have smaller := maybe member
      simp
      omega

theorem induction {motive : ExprNode → Prop}
    (node : ∀ e, (∀ c ∈ e.children, motive c) → motive e) (e : ExprNode) : motive e :=
  node e fun c _ => induction node c
termination_by sizeOf e
decreasing_by exact sizeOf_lt_of_mem_children ‹_›

end ExprNode

open ExprNode

/-! ## The checks -/

section Checks
variable (r : ValidationResult)

theorem checkPrimeIndex_ok_iff (prime : UInt64) :
    (checkPrimeIndex prime r).2.ok = true ↔ r.ok = true ∧ (ExprNode.atom prime).Obeys := by
  unfold checkPrimeIndex Obeys
  split
  · rename_i small
    simp [ValidationResult.addError, UInt64.not_le.mpr small]
  · rename_i large
    simp [UInt64.not_lt.mp large]

theorem checkBinaryOp_ok_iff (op : Bytes) (operands : List ExprNode) :
    (checkBinaryOp op operands r).2.ok = true ↔
      r.ok = true ∧ (ExprNode.binary op operands).Obeys := by
  unfold checkBinaryOp Obeys
  split
  · rename_i unknown
    simp [ValidationResult.addError, unknown]
  split
  · rename_i wrong
    simp [ValidationResult.addError, wrong]
  split
  · rename_i zero
    simp [ValidationResult.addError, zero]
  · rename_i known two nonzero
    rw [not_not] at known two
    exact (and_iff_left ⟨known, two, nonzero⟩).symm

theorem checkCall_ok_iff (name : Bytes) (args : List ExprNode) :
    (checkCall name args r).2.ok = true ↔ r.ok = true ∧ (ExprNode.call name args).Obeys := by
  unfold checkCall Obeys
  split
  · rename_i unknown
    simp [ValidationResult.addError, unknown]
  split
  · rename_i wrong
    simp [ValidationResult.addError, wrong]
  · rename_i known one
    rw [not_not] at known
    rw [not_and, not_not] at one
    exact (and_iff_left ⟨known, one⟩).symm

theorem checkStratumBoundary_ok_iff (inner : ExprNode) :
    (checkStratumBoundary inner r).2.ok = true ↔
      r.ok = true ∧ (ExprNode.stratumBoundary (some inner)).Obeys := by
  rw [checkStratumBoundary, Obeys, Option.any_some]
  split
  · rename_i zero
    simp [ValidationResult.addError, zero]
  · rename_i nonzero
    exact (and_iff_left nonzero).symm

theorem checkSuccessorBounds_ok_iff (value : UInt64) :
    (checkSuccessorBounds value r).2.ok = true ↔
      r.ok = true ∧ (ExprNode.successor (some (.literal value))).Obeys := by
  have bound : value > 9223372036854775807 ↔ 2 ^ 63 - 1 < value.toNat := UInt64.lt_iff_toNat_lt
  rw [checkSuccessorBounds, Obeys, Option.any_some, literalAbove, decide_eq_true_iff, ← bound]
  split
  · rename_i large
    simp [ValidationResult.addError, large]
  · rename_i small
    exact (and_iff_left small).symm

theorem if_ok_iff {checked : ValidationResult} {rule : Prop}
    (check : checked.ok = true ↔ r.ok = true ∧ rule) :
    (if r.ok then checked else r).ok = true ↔ r.ok = true ∧ rule := by
  split
  · exact check
  · rename_i rejected
    simp [rejected]

theorem checkSuccessorInner_ok_iff (inner : Option ExprNode) :
    (checkSuccessorInner inner r).ok = true ↔ r.ok = true ∧ (ExprNode.successor inner).Obeys := by
  cases inner with
  | none => simp [checkSuccessorInner, Obeys]
  | some inner =>
      cases inner with
      | literal value => exact if_ok_iff r (checkSuccessorBounds_ok_iff r value)
      | _ => simp [checkSuccessorInner, Obeys, literalAbove]

theorem checkBoundaryInner_ok_iff (inner : Option ExprNode) :
    (checkBoundaryInner inner r).ok = true ↔
      r.ok = true ∧ (ExprNode.stratumBoundary inner).Obeys := by
  cases inner with
  | none => simp [checkBoundaryInner, Obeys]
  | some inner => exact if_ok_iff r (checkStratumBoundary_ok_iff r inner)

end Checks

/-! ## The traversal -/

section Traversal
variable {P : ExprNode → Prop}

theorem validateMaybe_ok_iff {expr : Option ExprNode}
    (each : ∀ c ∈ expr.toList, ∀ r, (validateExpr c r).ok = true ↔ r.ok = true ∧ P c)
    (r : ValidationResult) :
    (validateMaybe expr r).ok = true ↔ r.ok = true ∧ ∀ c ∈ expr.toList, P c := by
  cases expr with
  | none => simp [validateMaybe]
  | some c => simpa [validateMaybe] using each c (by simp) r

theorem validateEach_ok_iff {stmts : List ExprNode}
    (each : ∀ c ∈ stmts, ∀ r, (validateExpr c r).ok = true ↔ r.ok = true ∧ P c)
    (r : ValidationResult) :
    (validateEach stmts r).ok = true ↔ r.ok = true ∧ ∀ c ∈ stmts, P c := by
  induction stmts generalizing r with
  | nil => simp [validateEach]
  | cons stmt stmts ih =>
      rw [List.forall_mem_cons] at each
      rw [validateEach, ih each.2, each.1, List.forall_mem_cons, and_assoc]

theorem forall_children_if {cond : Option ExprNode} {thenBranch elseBranch : List ExprNode} :
    (∀ c ∈ (ifThenElse cond thenBranch elseBranch).children, P c) ↔
      (∀ c ∈ cond.toList, P c) ∧ (∀ c ∈ thenBranch, P c) ∧ ∀ c ∈ elseBranch, P c := by
  rw [children, List.forall_mem_append, List.forall_mem_append, and_assoc]

end Traversal

theorem validateExpr_ok_iff (e : ExprNode) (r : ValidationResult) :
    (validateExpr e r).ok = true ↔ r.ok = true ∧ ∀ n, Visited e n → n.Obeys := by
  induction e using ExprNode.induction generalizing r with
  | node e ih =>
      rw [forall_occurs_iff]
      cases e with
      | literal value => simp [validateExpr, descended, children, Obeys]
      | ident name => simp [validateExpr, descended, children, Obeys]
      | atom prime => simp [validateExpr, descended, children, checkPrimeIndex_ok_iff]
      | binary op operands => simp [validateExpr, descended, checkBinaryOp_ok_iff]
      | call name args => simp [validateExpr, descended, checkCall_ok_iff]
      | ifThenElse cond thenBranch elseBranch =>
          obtain ⟨inCond, inThen, inElse⟩ := forall_children_if.mp ih
          rw [validateExpr, validateEach_ok_iff inElse, validateEach_ok_iff inThen,
            validateMaybe_ok_iff inCond]
          simp only [descended, forall_children_if, Obeys, true_and, and_assoc]
      | successor inner =>
          rw [validateExpr, checkSuccessorInner_ok_iff, validateMaybe_ok_iff ih, and_right_comm,
            and_assoc]
          rfl
      | stratumBoundary inner =>
          rw [validateExpr, checkBoundaryInner_ok_iff, validateMaybe_ok_iff ih, and_right_comm,
            and_assoc]
          rfl

theorem validate_ok_iff (e : ExprNode) :
    (validate e).ok = true ↔ ∀ n, Visited e n → n.Obeys := by
  rw [validate, validateExpr_ok_iff]
  exact and_iff_right rfl

/-! ## The nodes that are left out -/

namespace ExprNode

def leftOut : ExprNode → List ExprNode
  | .binary _ operands => operands
  | .call _ args => args
  | _ => []

theorem mem_children_iff {e c : ExprNode} : c ∈ e.children ↔ c ∈ e.descended ∨ c ∈ e.leftOut := by
  cases e <;> simp [children, descended, leftOut]

def Hidden (e n : ExprNode) : Prop := ∃ root, Visited e root ∧ ∃ c ∈ root.leftOut, Within c n

theorem within_iff {e n : ExprNode} : Within e n ↔ Visited e n ∨ Hidden e n := by
  constructor
  · intro within
    induction within using Relation.ReflTransGen.head_induction_on with
    | refl => exact .inl .refl
    | head member inside ih =>
        rcases mem_children_iff.mp member with reached | skipped
        · rcases ih with visited | ⟨root, visited, hidden⟩
          · exact .inl (.below reached visited)
          · exact .inr ⟨root, .below reached visited, hidden⟩
        · exact .inr ⟨_, .refl, _, skipped, inside⟩
  · rintro (visited | ⟨root, visited, c, skipped, inside⟩)
    · exact visited.mono descended_subset
    · exact (visited.mono descended_subset).trans
        (.below (mem_children_iff.mpr (.inr skipped)) inside)

end ExprNode

/-- Acceptance means that the whole tree obeys the rules when some visited node breaks one, so that
the tree is rejected, or when nothing that the traversal leaves out breaks any. -/
theorem validate_sound_iff (e : ExprNode) :
    ((validate e).ok = true → ∀ n, Within e n → n.Obeys) ↔
      (∃ n, Visited e n ∧ ¬ n.Obeys) ∨ ∀ n, Hidden e n → n.Obeys := by
  rw [validate_ok_iff]
  constructor
  · intro sound
    by_cases accepted : ∀ n, Visited e n → n.Obeys
    · exact .inr fun n hidden => sound accepted n (within_iff.mpr (.inr hidden))
    · push Not at accepted
      exact .inl accepted
  · rintro (⟨n, visited, broken⟩ | obeyed) accepted m within
    · exact absurd (accepted n visited) broken
    · rcases within_iff.mp within with visited | hidden
      · exact accepted m visited
      · exact obeyed m hidden

theorem validate_add_of_zero_atoms :
    let e := ExprNode.binary (str "add") [.atom 0, .atom 0]
    (validate e).ok = true ∧ ∃ n, Within e n ∧ ¬ n.Obeys :=
  ⟨by decide, .atom 0, .child (by simp [children]), by decide⟩

end SovereignPirtm.Admissibility
