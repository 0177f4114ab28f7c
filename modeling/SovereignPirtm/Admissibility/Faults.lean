import SovereignPirtm.Library.Gated
import SovereignPirtm.Admissibility.Soundness

/-!
# What is reported

The faults of a tree are the codes of the rules that its visited nodes break, in the order of the
traversal. A run of `validate_expr` logs them, but for two rules that are checked only while the
shared result is still ok.
-/

namespace SovereignPirtm.Admissibility
open Library

/-! ## Faults -/

namespace ExprNode

/-- A node has at most one fault: the checks of a node return after their first error. -/
def fault : ExprNode → Option Bytes
  | .atom primeIndex => if primeIndex < 2 then some (str "ADM001") else none
  | .binary op operands =>
      if !validOps.contains op then some (str "ADM002")
      else if operands.length ≠ 2 then some (str "ADM003")
      else if op = str "div" ∧ operands[1]?.any (isLiteral 0) then some (str "ADM004")
      else none
  | .call name args =>
      if !validFuncs.contains name then some (str "ADM005")
      else if name = str "Ap" ∧ args.length ≠ 1 then some (str "ADM006")
      else none
  | .stratumBoundary inner => if inner.any (isLiteral 0) then some (str "ADM007") else none
  | .successor inner =>
      if inner.any (literalAbove (2 ^ 63 - 1)) then some (str "ADM008") else none
  | _ => none

theorem not_contains_iff {names : List Bytes} {name : Bytes} :
    (!names.contains name) = true ↔ name ∉ names := by
  simp

mutual

/-- The visited nodes, in the order in which their own checks are made. -/
def traversal : ExprNode → List ExprNode
  | .ifThenElse cond thenBranch elseBranch =>
      traversalMaybe cond ++ (traversalEach thenBranch ++ traversalEach elseBranch) ++
        [.ifThenElse cond thenBranch elseBranch]
  | .successor inner => traversalMaybe inner ++ [.successor inner]
  | .stratumBoundary inner => traversalMaybe inner ++ [.stratumBoundary inner]
  | e => [e]

def traversalMaybe : Option ExprNode → List ExprNode
  | none => []
  | some e => e.traversal

def traversalEach : List ExprNode → List ExprNode
  | [] => []
  | e :: es => e.traversal ++ traversalEach es

end

theorem traversalMaybe_eq (expr : Option ExprNode) :
    traversalMaybe expr = expr.toList.flatMap traversal := by
  cases expr with
  | none => rfl
  | some e => simp [traversalMaybe]

theorem traversalEach_eq (stmts : List ExprNode) :
    traversalEach stmts = stmts.flatMap traversal := by
  induction stmts with
  | nil => rfl
  | cons stmt stmts ih => rw [traversalEach, ih, List.flatMap_cons]

theorem traversal_eq (e : ExprNode) : e.traversal = e.descended.flatMap traversal ++ [e] := by
  cases e with
  | ifThenElse cond thenBranch elseBranch =>
      simp [traversal, traversalMaybe_eq, traversalEach_eq, descended, children]
  | successor inner => simp only [traversal, traversalMaybe_eq, descended, children]
  | stratumBoundary inner => simp only [traversal, traversalMaybe_eq, descended, children]
  | _ => simp [traversal, descended, children]

theorem mem_traversal_iff {e n : ExprNode} : n ∈ e.traversal ↔ Visited e n := by
  induction e using ExprNode.induction with
  | node e ih =>
      rw [traversal_eq, List.mem_append, List.mem_flatMap, List.mem_singleton, Visited, occurs_iff,
        or_comm]
      refine or_congr Iff.rfl (exists_congr fun c => and_congr_right fun below => ?_)
      exact ih c (descended_subset e below)

def faults (e : ExprNode) : List Bytes := e.traversal.filterMap fault

theorem faults_eq (e : ExprNode) : e.faults = e.descended.flatMap faults ++ e.fault.toList := by
  have own : [e].filterMap fault = e.fault.toList := by
    cases broken : fault e <;> simp [broken]
  rw [faults, traversal_eq, List.filterMap_append, List.filterMap_flatMap, own]
  rfl

theorem faults_if (cond : Option ExprNode) (thenBranch elseBranch : List ExprNode) :
    (ifThenElse cond thenBranch elseBranch).faults = cond.toList.flatMap faults ++
      (thenBranch.flatMap faults ++ elseBranch.flatMap faults) := by
  rw [faults_eq]
  simp [descended, children, fault]

end ExprNode

open ExprNode

/-! ## The log -/

def ValidationResult.codes (r : ValidationResult) : List Bytes := r.errors.map ValidationError.code

/-- The codes of the checks behind `if (result.ok ..)`. -/
def late (code : Bytes) : Bool := code == str "ADM007" || code == str "ADM008"

structure Reports (r r' : ValidationResult) (faults : List Bytes) : Prop where
  codes : r'.codes = r.codes ++ gated late r.ok faults
  ok : r'.ok = (r.ok && faults.isEmpty)

namespace Reports
variable {r r' r'' : ValidationResult} {first second : List Bytes}

theorem refl (r : ValidationResult) : Reports r r [] := ⟨by simp, by simp⟩

theorem trans (before : Reports r r' first) (after : Reports r' r'' second) :
    Reports r r'' (first ++ second) := by
  constructor
  · rw [after.codes, before.codes, gated_append, ← before.ok, List.append_assoc]
  · rw [after.ok, before.ok, Bool.and_assoc]
    cases first <;> rfl

theorem addError (r : ValidationResult) {code : Bytes} (message : Bytes)
    (allowed : r.ok = true ∨ late code = false) : Reports r (r.addError code message) [code] := by
  constructor
  · rcases allowed with fresh | early
    · simp [ValidationResult.codes, ValidationResult.addError, fresh]
    · cases r.ok <;> simp [ValidationResult.codes, ValidationResult.addError, early]
  · simp [ValidationResult.addError]

theorem gate {checked : ValidationResult} {codes : List Bytes}
    (check : r.ok = true → Reports r checked codes) (waits : ∀ code ∈ codes, late code = true) :
    Reports r (if r.ok then checked else r) codes := by
  cases ok : r.ok with
  | true => exact check ok
  | false =>
      have silent : codes.filter (!late ·) = [] := by simpa using waits
      exact ⟨by simp [ok, silent], by simp [ok]⟩

theorem waiting (r : ValidationResult) (c : Prop) [Decidable c] {code : Bytes} (message : Bytes)
    (waits : late code = true) :
    Reports r (if r.ok then (if c then (false, r.addError code message) else (true, r)).2 else r)
      (if c then some code else none).toList := by
  apply gate
  · intro fresh
    split
    · exact .addError r _ (.inl fresh)
    · exact .refl r
  · intro other member
    split at member
    · obtain rfl := List.mem_singleton.mp member
      exact waits
    · cases member

end Reports

section Checks
variable (r : ValidationResult)

theorem checkPrimeIndex_reports (prime : UInt64) :
    Reports r (checkPrimeIndex prime r).2 (atom prime).fault.toList := by
  simp only [checkPrimeIndex, fault]
  split
  · exact .addError r _ (.inr (by decide))
  · exact .refl r

theorem checkBinaryOp_reports (op : Bytes) (operands : List ExprNode) :
    Reports r (checkBinaryOp op operands r).2 (binary op operands).fault.toList := by
  simp only [checkBinaryOp, fault, not_contains_iff]
  split
  · exact .addError r _ (.inr (by decide))
  split
  · exact .addError r _ (.inr (by decide))
  split
  · exact .addError r _ (.inr (by decide))
  · exact .refl r

theorem checkCall_reports (name : Bytes) (args : List ExprNode) :
    Reports r (checkCall name args r).2 (call name args).fault.toList := by
  simp only [checkCall, fault, not_contains_iff]
  split
  · exact .addError r _ (.inr (by decide))
  split
  · exact .addError r _ (.inr (by decide))
  · exact .refl r

theorem checkSuccessorInner_reports (inner : Option ExprNode) :
    Reports r (checkSuccessorInner inner r) (successor inner).fault.toList := by
  cases inner with
  | none => exact .refl r
  | some inner =>
      cases inner with
      | literal value =>
          have above : value > 9223372036854775807 ↔ literalAbove (2 ^ 63 - 1) (.literal value) := by
            rw [literalAbove, decide_eq_true_iff]
            exact UInt64.lt_iff_toNat_lt
          simp only [checkSuccessorInner, checkSuccessorBounds, fault, Option.any_some, ← above]
          exact Reports.waiting r _ _ (by decide)
      | _ => exact .refl r

theorem checkBoundaryInner_reports (inner : Option ExprNode) :
    Reports r (checkBoundaryInner inner r) (stratumBoundary inner).fault.toList := by
  cases inner with
  | none => exact .refl r
  | some inner =>
      simp only [checkBoundaryInner, checkStratumBoundary, fault, Option.any_some]
      exact Reports.waiting r _ _ (by decide)

theorem validateMaybe_reports {expr : Option ExprNode}
    (each : ∀ c ∈ expr.toList, ∀ r, Reports r (validateExpr c r) c.faults) :
    Reports r (validateMaybe expr r) (expr.toList.flatMap faults) := by
  cases expr with
  | none => exact .refl r
  | some c =>
      rw [Option.toList_some, List.flatMap_singleton]
      exact each c (by simp) r

theorem validateEach_reports {stmts : List ExprNode}
    (each : ∀ c ∈ stmts, ∀ r, Reports r (validateExpr c r) c.faults) :
    Reports r (validateEach stmts r) (stmts.flatMap faults) := by
  induction stmts generalizing r with
  | nil => exact .refl r
  | cons stmt stmts ih =>
      rw [List.forall_mem_cons] at each
      rw [List.flatMap_cons]
      exact (each.1 r).trans (ih _ each.2)

end Checks

theorem validateExpr_reports (e : ExprNode) (r : ValidationResult) :
    Reports r (validateExpr e r) e.faults := by
  induction e using ExprNode.induction generalizing r with
  | node e ih =>
      cases e with
      | literal value => exact .refl r
      | ident name => exact .refl r
      | atom prime => exact checkPrimeIndex_reports r prime
      | binary op operands => exact checkBinaryOp_reports r op operands
      | call name args => exact checkCall_reports r name args
      | ifThenElse cond thenBranch elseBranch =>
          obtain ⟨inCond, inThen, inElse⟩ := forall_children_if.mp ih
          rw [faults_if]
          exact (validateMaybe_reports r inCond).trans
            ((validateEach_reports _ inThen).trans (validateEach_reports _ inElse))
      | successor inner =>
          rw [faults_eq]
          exact (validateMaybe_reports r ih).trans (checkSuccessorInner_reports _ inner)
      | stratumBoundary inner =>
          rw [faults_eq]
          exact (validateMaybe_reports r ih).trans (checkBoundaryInner_reports _ inner)

theorem validate_codes (e : ExprNode) : (validate e).codes = gated late true e.faults :=
  (validateExpr_reports e .new).codes

theorem validate_ok (e : ExprNode) : (validate e).ok = e.faults.isEmpty :=
  (validateExpr_reports e .new).ok

/-! ## The rules behind the codes -/

def ExprNode.Violates (code : Bytes) : ExprNode → Prop
  | .atom primeIndex => code = str "ADM001" ∧ primeIndex < 2
  | .binary op operands =>
      (code = str "ADM002" ∧ op ∉ validOps) ∨ (code = str "ADM003" ∧ operands.length ≠ 2) ∨
        (code = str "ADM004" ∧ op = str "div" ∧ operands[1]?.any (isLiteral 0))
  | .call name args =>
      (code = str "ADM005" ∧ name ∉ validFuncs) ∨
        (code = str "ADM006" ∧ name = str "Ap" ∧ args.length ≠ 1)
  | .stratumBoundary inner => code = str "ADM007" ∧ inner.any (isLiteral 0)
  | .successor inner => code = str "ADM008" ∧ inner.any (literalAbove (2 ^ 63 - 1))
  | _ => False

theorem ExprNode.violates_of_fault {e : ExprNode} {code : Bytes} (broken : e.fault = some code) :
    e.Violates code := by
  cases e with
  | literal value => cases broken
  | ident name => cases broken
  | ifThenElse cond thenBranch elseBranch => cases broken
  | atom primeIndex =>
      obtain ⟨small, same⟩ := Option.ite_none_right_eq_some.mp broken
      exact ⟨(Option.some.inj same).symm, small⟩
  | binary op operands =>
      simp only [fault, not_contains_iff] at broken
      split at broken
      · exact .inl ⟨(Option.some.inj broken).symm, ‹_›⟩
      split at broken
      · exact .inr (.inl ⟨(Option.some.inj broken).symm, ‹_›⟩)
      split at broken
      · exact .inr (.inr ⟨(Option.some.inj broken).symm, ‹_›⟩)
      · cases broken
  | call name args =>
      simp only [fault, not_contains_iff] at broken
      split at broken
      · exact .inl ⟨(Option.some.inj broken).symm, ‹_›⟩
      split at broken
      · exact .inr ⟨(Option.some.inj broken).symm, ‹_›⟩
      · cases broken
  | successor inner =>
      obtain ⟨above, same⟩ := Option.ite_none_right_eq_some.mp broken
      exact ⟨(Option.some.inj same).symm, above⟩
  | stratumBoundary inner =>
      obtain ⟨zero, same⟩ := Option.ite_none_right_eq_some.mp broken
      exact ⟨(Option.some.inj same).symm, zero⟩

theorem ExprNode.exists_violates_of_mem_faults {e : ExprNode} {code : Bytes}
    (member : code ∈ e.faults) : ∃ n, Within e n ∧ n.Violates code := by
  rw [faults, List.mem_filterMap] at member
  obtain ⟨n, visited, broken⟩ := member
  exact ⟨n, (mem_traversal_iff.mp visited).mono descended_subset, violates_of_fault broken⟩

/-- Each reported error is the fault of a node of its own among the visited ones, in their order, and
a tree without faults is accepted. -/
theorem validate_blames (e : ExprNode) :
    (∃ blamed, blamed.Sublist e.traversal ∧
      List.Forall₂ (fun error n => n.Violates error.code) (validate e).errors blamed) ∧
      (∀ n ∈ e.traversal, Within e n) ∧
      ((∀ n, Within e n → ∀ code, ¬ n.Violates code) → (validate e).ok = true) := by
  refine ⟨?_, fun n visited => (mem_traversal_iff.mp visited).mono descended_subset, ?_⟩
  · have log : (validate e).codes.Sublist (e.traversal.filterMap fault) := by
      rw [validate_codes]
      exact gated_sublist_self late true _
    obtain ⟨blamed, inside, gave⟩ := exists_sublist_of_filterMap log
    refine ⟨blamed, inside, ?_⟩
    rw [ValidationResult.codes, List.forall₂_map_left_iff] at gave
    exact gave.imp fun error n broken => violates_of_fault broken
  · intro clean
    rw [validate_ok, List.isEmpty_iff, List.eq_nil_iff_forall_not_mem]
    intro code member
    obtain ⟨n, within, violates⟩ := exists_violates_of_mem_faults member
    exact clean n within code violates

/-- Three nodes are blamed; the atom between them and the boundary behind them are not. -/
theorem validate_blames_branches :
    let zero := ExprNode.stratumBoundary (some (.literal 0))
    let e := ExprNode.ifThenElse (some (.successor (some (.atom 0))))
      [.binary (str "mod") [], .atom 3] [.atom 1, zero]
    let clean := ExprNode.ifThenElse (some (.ident (str "x"))) [.atom 3] []
    (validate e).codes = [str "ADM001", str "ADM002", str "ADM001"] ∧
      (∃ blamed, blamed.Sublist e.traversal ∧
        List.Forall₂ (fun error n => n.Violates error.code) (validate e).errors blamed) ∧
      (validate clean).ok = true := by
  intro zero e clean
  refine ⟨by decide, (validate_blames e).1, (validate_blames clean).2.2 ?_⟩
  intro n within code violates
  have parts : n = clean ∨ n = .ident (str "x") ∨ n = .atom 3 := by
    rcases occurs_iff.mp within with rfl | ⟨c, member, below⟩
    · exact .inl rfl
    · have part : c = .ident (str "x") ∨ c = .atom 3 := by simpa [clean, children] using member
      rcases part with rfl | rfl <;> rcases occurs_iff.mp below with rfl | ⟨_, deeper, -⟩
      · exact .inr (.inl rfl)
      · cases deeper
      · exact .inr (.inr rfl)
      · cases deeper
  rcases parts with rfl | rfl | rfl
  · exact violates
  · exact violates
  · exact absurd violates.2 (by decide)

end SovereignPirtm.Admissibility
