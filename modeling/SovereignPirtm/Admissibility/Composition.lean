import SovereignPirtm.Admissibility.Errors
import SovereignPirtm.Admissibility.Faults

/-!
# Branches and programs

An expression is validated into a result that may already hold errors. An `If` logs the errors of
all its parts into one result, a program stops at the first part that is not ok.
-/

namespace SovereignPirtm.Admissibility
open Library ExprNode

/-! ## The incoming result -/

/-- What is appended depends on the incoming result, the verdict on the tree does not. -/
theorem validateExpr_context (e : ExprNode) {r : ValidationResult}
    (consistent : r.ok = true ↔ r.errors = []) :
    ((validateExpr e r).ok = true ↔ (validateExpr e r).errors = []) ∧
      r.errors <+: (validateExpr e r).errors ∧
      (validateExpr e r).ok = (r.ok && (validate e).ok) := by
  obtain ⟨added, appended⟩ := validateExpr_extends e r
  refine ⟨?_, ⟨added, appended.errors.symm⟩, ?_⟩
  · rw [appended.ok, appended.errors, List.append_eq_nil_iff, consistent]
  · rw [validate_ok, (validateExpr_reports e r).ok]

/-- The fault of the boundary is not logged behind that of the atom. -/
theorem validateExpr_context_boundary :
    (validateExpr (.stratumBoundary (some (.literal 0))) (validate (.atom 0))).codes =
        [str "ADM001"] ∧
      (validateExpr (.stratumBoundary (some (.literal 0))) (validate (.atom 0))).ok =
        ((validate (.atom 0)).ok && (validate (.stratumBoundary (some (.literal 0)))).ok) := by
  have consistent : (validate (.atom 0)).ok = true ↔ (validate (.atom 0)).errors = [] := by decide
  have context := validateExpr_context (.stratumBoundary (some (.literal 0))) consistent
  exact ⟨by decide, context.2.2⟩

/-! ## Branches -/

/-- The errors of an `If` are those of its parts, unless some part after a rejected one has a zero
boundary or a successor out of bounds for its first fault: that fault goes unreported. -/
theorem if_codes_iff (cond : Option ExprNode) (thenBranch elseBranch : List ExprNode) :
    let parts := cond.toList ++ (thenBranch ++ elseBranch)
    (validate (.ifThenElse cond thenBranch elseBranch)).codes =
        parts.flatMap (fun part => (validate part).codes) ↔
      parts.Pairwise fun part next =>
        part.faults ≠ [] → ∀ code ∈ next.faults.head?, late code = false := by
  intro parts
  have all : (ifThenElse cond thenBranch elseBranch).faults = parts.flatMap faults := by
    rw [faults_if, List.flatMap_append, List.flatMap_append]
  simp only [validate_codes, all]
  exact gated_flatMap_iff

theorem if_codes_hidden :
    let atom := ExprNode.atom 0
    let next := ExprNode.successor (some (.literal 9223372036854775808))
    (validate (.ifThenElse none [atom, next] [])).codes = [str "ADM001"] ∧
      (validate atom).codes ++ (validate next).codes = [str "ADM001", str "ADM008"] := by
  decide

/-! ## Programs -/

theorem validateExpr_accepted {e : ExprNode} {r : ValidationResult}
    (accepted : (validateExpr e r).ok = true) : validateExpr e r = r := by
  obtain ⟨added, appended⟩ := validateExpr_extends e r
  obtain ⟨fresh, rfl⟩ := appended.ok.mp accepted
  have errors := appended.errors
  rw [List.append_nil] at errors
  rcases same : validateExpr e r with ⟨ok, logged⟩
  rw [same] at accepted errors
  cases r
  simp_all

/-- A program is validated like its first statement that is rejected. -/
theorem validateProgram_eq (stmts : List ExprNode) :
    validateProgram stmts =
      match stmts.find? fun stmt => !(validate stmt).ok with
      | none => ⟨true, []⟩
      | some stmt => validate stmt := by
  unfold validateProgram
  induction stmts with
  | nil => rfl
  | cons stmt stmts ih =>
      rw [validateStmts, List.find?_cons]
      cases accepted : (validate stmt).ok with
      | true =>
          have unchanged : validateExpr stmt .new = .new := validateExpr_accepted accepted
          simp only [unchanged, ih]
          rfl
      | false =>
          have rejected : (validateExpr stmt .new).ok = false := accepted
          simp only [rejected]
          rfl

end SovereignPirtm.Admissibility
