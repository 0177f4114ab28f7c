import SovereignPirtm.Contractivity.Digest
import SovereignPirtm.Admissibility.Soundness

/-!
# The errors of a validator

The validation appends errors to the result it is handed, all of them with an empty receipt. The
function that computes receipts is called by nobody.
-/

namespace SovereignPirtm.Admissibility
open Library Contractivity ExprNode

/-! ## What is appended -/

structure Appends (r r' : ValidationResult) (added : List ValidationError) : Prop where
  errors : r'.errors = r.errors ++ added
  receiptHash : ∀ error ∈ added, error.receiptHash = []
  ok : r'.ok = true ↔ r.ok = true ∧ added = []

def Extends (r r' : ValidationResult) : Prop := ∃ added, Appends r r' added

namespace Extends
variable {r r' r'' : ValidationResult}

theorem refl (r : ValidationResult) : Extends r r := ⟨[], by simp, by simp, by simp⟩

theorem trans (first : Extends r r') (second : Extends r' r'') : Extends r r'' := by
  obtain ⟨added, first⟩ := first
  obtain ⟨more, second⟩ := second
  refine ⟨added ++ more, ?_, ?_, ?_⟩
  · rw [second.errors, first.errors, List.append_assoc]
  · exact List.forall_mem_append.mpr ⟨first.receiptHash, second.receiptHash⟩
  · rw [second.ok, first.ok, List.append_eq_nil_iff, and_assoc]

theorem addError (r : ValidationResult) (code message : Bytes) :
    Extends r (r.addError code message) :=
  ⟨_, rfl, by simp, by simp [ValidationResult.addError]⟩

end Extends

section Checks
variable (r : ValidationResult)

theorem checkPrimeIndex_extends (prime : UInt64) : Extends r (checkPrimeIndex prime r).2 := by
  unfold checkPrimeIndex
  split
  · exact .addError r _ _
  · exact .refl r

theorem checkBinaryOp_extends (op : Bytes) (operands : List ExprNode) :
    Extends r (checkBinaryOp op operands r).2 := by
  unfold checkBinaryOp
  split
  · exact .addError r _ _
  split
  · exact .addError r _ _
  split
  · exact .addError r _ _
  · exact .refl r

theorem checkCall_extends (name : Bytes) (args : List ExprNode) :
    Extends r (checkCall name args r).2 := by
  unfold checkCall
  split
  · exact .addError r _ _
  split
  · exact .addError r _ _
  · exact .refl r

theorem checkSuccessorInner_extends (inner : Option ExprNode) :
    Extends r (checkSuccessorInner inner r) := by
  unfold checkSuccessorInner
  split
  · split
    · unfold checkSuccessorBounds
      split
      · exact .addError r _ _
      · exact .refl r
    · exact .refl r
  · exact .refl r

theorem checkBoundaryInner_extends (inner : Option ExprNode) :
    Extends r (checkBoundaryInner inner r) := by
  unfold checkBoundaryInner
  split
  · split
    · unfold checkStratumBoundary
      split
      · exact .addError r _ _
      · exact .refl r
    · exact .refl r
  · exact .refl r

theorem validateMaybe_extends {expr : Option ExprNode}
    (each : ∀ c ∈ expr.toList, ∀ r, Extends r (validateExpr c r)) :
    Extends r (validateMaybe expr r) := by
  cases expr with
  | none => exact .refl r
  | some c => exact each c (by simp) r

theorem validateEach_extends {stmts : List ExprNode}
    (each : ∀ c ∈ stmts, ∀ r, Extends r (validateExpr c r)) :
    Extends r (validateEach stmts r) := by
  induction stmts generalizing r with
  | nil => exact .refl r
  | cons stmt stmts ih =>
      rw [List.forall_mem_cons] at each
      exact (each.1 r).trans (ih _ each.2)

end Checks

theorem validateExpr_extends (e : ExprNode) (r : ValidationResult) :
    Extends r (validateExpr e r) := by
  induction e using ExprNode.induction generalizing r with
  | node e ih =>
      cases e with
      | literal value => exact .refl r
      | ident name => exact .refl r
      | atom prime => exact checkPrimeIndex_extends r prime
      | binary op operands => exact checkBinaryOp_extends r op operands
      | call name args => exact checkCall_extends r name args
      | ifThenElse cond thenBranch elseBranch =>
          obtain ⟨inCond, inThen, inElse⟩ := forall_children_if.mp ih
          exact (validateMaybe_extends r inCond).trans
            ((validateEach_extends _ inThen).trans (validateEach_extends _ inElse))
      | successor inner =>
          exact (validateMaybe_extends r ih).trans (checkSuccessorInner_extends _ inner)
      | stratumBoundary inner =>
          exact (validateMaybe_extends r ih).trans (checkBoundaryInner_extends _ inner)

theorem validateStmts_extends (stmts : List ExprNode) (r : ValidationResult) :
    Extends r (validateStmts stmts r) := by
  induction stmts generalizing r with
  | nil => exact .refl r
  | cons stmt stmts ih =>
      rw [validateStmts]
      split
      · exact (validateExpr_extends stmt r).trans (ih _)
      · exact validateExpr_extends stmt r

theorem validateStmts_ok_iff (stmts : List ExprNode) (r : ValidationResult) :
    (validateStmts stmts r).ok = true ↔
      r.ok = true ∧ ∀ e ∈ stmts, ∀ n, Visited e n → n.Obeys := by
  induction stmts generalizing r with
  | nil => simp [validateStmts]
  | cons stmt stmts ih =>
      rw [validateStmts, List.forall_mem_cons, ← and_assoc, ← validateExpr_ok_iff]
      split
      · exact ih _
      · rename_i rejected
        simp [rejected]

/-! ## A validator and its requests -/

structure AdmissibilityValidator where
  counter : UInt64

inductive Request where
  | validate (expr : ExprNode)
  | validateProgram (stmts : List ExprNode)

namespace AdmissibilityValidator

def new : AdmissibilityValidator := ⟨0⟩

/-- `rejection_hash`, which does not look at the expression. -/
def rejectionHash (v : AdmissibilityValidator) (code : Bytes) (_expr : ExprNode) :
    Bytes × AdmissibilityValidator :=
  (sha256Hex (str "REJECT:" ++ code ++ str ":counter=" ++ decimal v.counter.toNat),
    ⟨v.counter + 1⟩)

/-- Neither method touches the counter. -/
def answer (v : AdmissibilityValidator) : Request → ValidationResult × AdmissibilityValidator
  | .validate expr => (Admissibility.validate expr, v)
  | .validateProgram stmts => (Admissibility.validateProgram stmts, v)

def reported : AdmissibilityValidator → List Request → List ValidationError
  | _, [] => []
  | v, request :: requests =>
      (v.answer request).1.errors ++ reported (v.answer request).2 requests

end AdmissibilityValidator

open AdmissibilityValidator

def Receipted (errors : List ValidationError) : Prop :=
  ∃ counters : List UInt64, counters.Nodup ∧
    List.Forall₂ (fun error counter => ∃ expr,
      error.receiptHash = ((⟨counter⟩ : AdmissibilityValidator).rejectionHash error.code expr).1)
      errors counters

def Request.exprs : Request → List ExprNode
  | .validate expr => [expr]
  | .validateProgram stmts => stmts

theorem answer_extends (v : AdmissibilityValidator) (request : Request) :
    Extends .new (v.answer request).1 := by
  cases request with
  | validate expr => exact validateExpr_extends expr .new
  | validateProgram stmts => exact validateStmts_extends stmts .new

theorem answer_ok_iff (v : AdmissibilityValidator) (request : Request) :
    (v.answer request).1.ok = true ↔ ∀ e ∈ request.exprs, ∀ n, Visited e n → n.Obeys := by
  cases request with
  | validate expr =>
      rw [Request.exprs, List.forall_mem_singleton]
      exact validate_ok_iff expr
  | validateProgram stmts =>
      exact (validateStmts_ok_iff stmts .new).trans (and_iff_right rfl)

theorem answer_errors_eq_nil_iff (v : AdmissibilityValidator) (request : Request) :
    (v.answer request).1.errors = [] ↔ ∀ e ∈ request.exprs, ∀ n, Visited e n → n.Obeys := by
  obtain ⟨added, appended⟩ := answer_extends v request
  rw [← answer_ok_iff v request, appended.ok, appended.errors]
  simp [ValidationResult.new]

theorem reported_receiptHash {v : AdmissibilityValidator} {requests : List Request}
    {error : ValidationError} (member : error ∈ v.reported requests) : error.receiptHash = [] := by
  induction requests generalizing v with
  | nil => simp [reported] at member
  | cons request requests ih =>
      rw [reported, List.mem_append] at member
      rcases member with now | later
      · obtain ⟨added, appended⟩ := answer_extends v request
        rw [appended.errors] at now
        exact appended.receiptHash error (by simpa [ValidationResult.new] using now)
      · exact ih later

theorem reported_eq_nil_iff (v : AdmissibilityValidator) (requests : List Request) :
    v.reported requests = [] ↔
      ∀ request ∈ requests, ∀ e ∈ request.exprs, ∀ n, Visited e n → n.Obeys := by
  induction requests generalizing v with
  | nil => simp [reported]
  | cons request requests ih =>
      rw [reported, List.append_eq_nil_iff, answer_errors_eq_nil_iff, ih, List.forall_mem_cons]

theorem not_receipted_cons {error : ValidationError} {errors : List ValidationError}
    (empty : error.receiptHash = []) : ¬ Receipted (error :: errors) := by
  rintro ⟨counters, -, receipts⟩
  obtain ⟨counter, -, ⟨expr, digest⟩, -, -⟩ := List.forall₂_cons_left_iff.mp receipts
  have size := congrArg List.length (empty.symm.trans digest)
  rw [rejectionHash, sha256Hex_length] at size
  exact absurd size (by decide)

theorem reported_receipted_iff (v : AdmissibilityValidator) (requests : List Request) :
    Receipted (v.reported requests) ↔
      ∀ request ∈ requests, ∀ e ∈ request.exprs, ∀ n, Visited e n → n.Obeys := by
  rw [← reported_eq_nil_iff v]
  constructor
  · intro receipted
    cases errors : v.reported requests with
    | nil => rfl
    | cons error rest =>
        have member : error ∈ v.reported requests := errors ▸ List.mem_cons_self
        rw [errors] at receipted
        exact absurd receipted (not_receipted_cons (reported_receiptHash member))
  · intro nothing
    rw [nothing]
    exact ⟨[], List.nodup_nil, .nil⟩

theorem not_receipted_atom :
    ¬ Receipted (AdmissibilityValidator.new.reported [.validate (.atom 0)]) :=
  not_receipted_cons rfl

end SovereignPirtm.Admissibility
