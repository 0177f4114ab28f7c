import SovereignPirtm.Admissibility.Errors
import SovereignPirtm.Admissibility.Soundness

/-!
# Rewritten programs

Identifiers are accepted because they are resolved later. What the validator says of an expression after
that, and of the statements of a program that have become a branch.
-/

namespace SovereignPirtm.Admissibility
open Library ExprNode

/-! ## Substitution -/

namespace ExprNode

mutual

def substitute (σ : Bytes → ExprNode) : ExprNode → ExprNode
  | .literal value => .literal value
  | .ident name => σ name
  | .atom primeIndex => .atom primeIndex
  | .binary op operands => .binary op (substituteEach σ operands)
  | .call name args => .call name (substituteEach σ args)
  | .ifThenElse cond thenBranch elseBranch =>
      .ifThenElse (substituteMaybe σ cond) (substituteEach σ thenBranch) (substituteEach σ elseBranch)
  | .successor inner => .successor (substituteMaybe σ inner)
  | .stratumBoundary inner => .stratumBoundary (substituteMaybe σ inner)

def substituteMaybe (σ : Bytes → ExprNode) : Option ExprNode → Option ExprNode
  | none => none
  | some e => some (e.substitute σ)

def substituteEach (σ : Bytes → ExprNode) : List ExprNode → List ExprNode
  | [] => []
  | e :: es => e.substitute σ :: substituteEach σ es

end

variable (σ : Bytes → ExprNode)

theorem substituteMaybe_eq (expr : Option ExprNode) :
    substituteMaybe σ expr = expr.map (substitute σ) := by
  cases expr with
  | none => rfl
  | some e => simp [substituteMaybe]

theorem substituteEach_eq (stmts : List ExprNode) :
    substituteEach σ stmts = stmts.map (substitute σ) := by
  induction stmts with
  | nil => rfl
  | cons stmt stmts ih => rw [substituteEach, ih, List.map_cons]

/-- A check that only literals fail, such as those of `check_binary_op` and its siblings. -/
def Exposes (check : ExprNode → Bool) (expr : Option ExprNode) : Prop :=
  ∃ name, expr = some (.ident name) ∧ check (σ name) = true

theorem any_substitute {check : ExprNode → Bool} (literals : ∀ e, check e = true → ∃ v, e = .literal v)
    (expr : Option ExprNode) : (expr.map (substitute σ)).any check = true ↔
      expr.any check = true ∨ Exposes σ check expr := by
  have silent {e : ExprNode} (other : ∀ v, e ≠ .literal v) : ¬ check e = true := by
    intro checked
    obtain ⟨v, rfl⟩ := literals e checked
    exact other v rfl
  cases expr with
  | none => simp [Exposes]
  | some e =>
      cases e with
      | literal value => simp [substitute, Exposes]
      | ident name => simp [substitute, Exposes, silent (e := ident name)]
      | _ => simp [substitute, Exposes, silent]

/-- What the names directly in a node must not stand for. -/
def Resolvable : ExprNode → Prop
  | .ident name => (validate (σ name)).ok = true
  | .binary op operands => ¬ (op = str "div" ∧ Exposes σ (isLiteral 0) operands[1]?)
  | .successor inner => ¬ Exposes σ (literalAbove (2 ^ 63 - 1)) inner
  | .stratumBoundary inner => ¬ Exposes σ (isLiteral 0) inner
  | _ => True

theorem eq_literal_of_isLiteral {value : UInt64} {e : ExprNode} (same : e.isLiteral value = true) :
    ∃ v, e = .literal v := by
  cases e with
  | literal v => exact ⟨v, rfl⟩
  | _ => cases same

theorem eq_literal_of_literalAbove {bound : ℕ} {e : ExprNode}
    (above : e.literalAbove bound = true) : ∃ v, e = .literal v := by
  cases e with
  | literal v => exact ⟨v, rfl⟩
  | _ => cases above

theorem obeys_substitute {e : ExprNode} (other : ∀ name, e ≠ .ident name) :
    (e.substitute σ).Obeys ↔ e.Obeys ∧ e.Resolvable σ := by
  cases e with
  | literal value => simp [substitute, Obeys, Resolvable]
  | ident name => exact absurd rfl (other name)
  | atom primeIndex => simp [substitute, Obeys, Resolvable]
  | binary op operands =>
      simp only [substitute, substituteEach_eq, Obeys, Resolvable, List.length_map, List.getElem?_map,
        any_substitute σ (fun _ => eq_literal_of_isLiteral)]
      tauto
  | call name args => simp [substitute, substituteEach_eq, Obeys, Resolvable]
  | ifThenElse cond thenBranch elseBranch => simp [substitute, Obeys, Resolvable]
  | successor inner =>
      simp only [substitute, substituteMaybe_eq, Obeys, Resolvable,
        any_substitute σ (fun _ => eq_literal_of_literalAbove), not_or]
  | stratumBoundary inner =>
      simp only [substitute, substituteMaybe_eq, Obeys, Resolvable,
        any_substitute σ (fun _ => eq_literal_of_isLiteral), not_or]

theorem descended_substitute {e : ExprNode} (other : ∀ name, e ≠ .ident name) :
    (e.substitute σ).descended = e.descended.map (substitute σ) := by
  have maybe (expr : Option ExprNode) :
      (expr.map (substitute σ)).toList = expr.toList.map (substitute σ) := by
    cases expr <;> rfl
  cases e with
  | ident name => exact absurd rfl (other name)
  | ifThenElse cond thenBranch elseBranch =>
      simp [substitute, substituteMaybe_eq, substituteEach_eq, descended, children, maybe]
  | successor inner => simp [substitute, substituteMaybe_eq, descended, children, maybe]
  | stratumBoundary inner => simp [substitute, substituteMaybe_eq, descended, children, maybe]
  | _ => simp [substitute, descended, children]

end ExprNode

theorem validate_ok_step (e : ExprNode) :
    (validate e).ok = true ↔ e.Obeys ∧ ∀ c ∈ e.descended, (validate c).ok = true := by
  simp only [validate_ok_iff]
  exact forall_occurs_iff

/-- An expression is accepted after its names are resolved when it was accepted before, each name that
is visited stands for something accepted, and no name directly in a visited division, `Successor` or
`StratumBoundary` stands for a literal that this node rejects. The operands of the division itself are
not visited. -/
theorem substitute_ok_iff (σ : Bytes → ExprNode) (e : ExprNode) :
    (validate (e.substitute σ)).ok = true ↔
      (validate e).ok = true ∧ ∀ n, Visited e n → n.Resolvable σ := by
  induction e using ExprNode.induction with
  | node e ih =>
      by_cases named : ∃ name, e = .ident name
      · obtain ⟨name, rfl⟩ := named
        have leaf : (ident name).descended = [] := rfl
        rw [validate_ok_step (.ident name), forall_occurs_iff, leaf]
        simp [substitute, Obeys, Resolvable]
      · rw [not_exists] at named
        rw [validate_ok_step, obeys_substitute σ named, descended_substitute σ named,
          List.forall_mem_map, validate_ok_step e, forall_occurs_iff]
        have below : (∀ c ∈ e.descended, (validate (c.substitute σ)).ok = true) ↔
            ∀ c ∈ e.descended, (validate c).ok = true ∧ ∀ n, Visited c n → n.Resolvable σ :=
          forall₂_congr fun c member => ih c (descended_subset e member)
        rw [below, forall₂_and]
        exact and_and_and_comm

/-! ## Statements in a branch -/

theorem validateStmts_validateEach (stmts : List ExprNode) {r : ValidationResult}
    (fresh : r.ok = true) : (validateStmts stmts r).ok = (validateEach stmts r).ok ∧
      (validateStmts stmts r).errors <+: (validateEach stmts r).errors := by
  induction stmts generalizing r with
  | nil => exact ⟨rfl, List.prefix_rfl⟩
  | cons stmt stmts ih =>
      rw [validateStmts, validateEach]
      by_cases accepted : (validateExpr stmt r).ok = true
      · simp only [if_pos accepted]
        exact ih accepted
      · simp only [if_neg accepted]
        obtain ⟨added, appended⟩ : Extends (validateExpr stmt r) (validateEach stmts _) :=
          validateEach_extends _ fun stmt _ r => validateExpr_extends stmt r
        refine ⟨?_, ⟨added, appended.errors.symm⟩⟩
        rw [Bool.eq_iff_iff, appended.ok]
        exact ⟨fun ok => absurd ok accepted, And.left⟩

theorem validateEach_append (stmts later : List ExprNode) (r : ValidationResult) :
    validateEach (stmts ++ later) r = validateEach later (validateEach stmts r) := by
  induction stmts generalizing r with
  | nil => rfl
  | cons stmt stmts ih => rw [List.cons_append, validateEach, validateEach, ih]

theorem validateEach_toList (expr : Option ExprNode) (r : ValidationResult) :
    validateEach expr.toList r = validateMaybe expr r := by
  cases expr <;> rfl

/-- As an `If`, the statements of a program get the same verdict, and their further errors are
reported too. -/
theorem validateProgram_branch (cond : Option ExprNode) (thenBranch elseBranch : List ExprNode) :
    let stmts := cond.toList ++ thenBranch ++ elseBranch
    let branched := ExprNode.ifThenElse cond thenBranch elseBranch
    (validateProgram stmts).ok = (validate branched).ok ∧
      (validateProgram stmts).errors <+: (validate branched).errors := by
  intro stmts branched
  have parts : validate branched = validateEach stmts .new := by
    rw [validateEach_append, validateEach_append, validateEach_toList]
    rfl
  rw [parts]
  exact validateStmts_validateEach stmts rfl

end SovereignPirtm.Admissibility
