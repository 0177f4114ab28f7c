import SovereignPirtm.Library.Text

/-!
# The admissibility validator

`ExprNode`, `ValidationResult` and the checks of `AdmissibilityValidator`. A node keeps the fields
that its kind uses.
-/

namespace SovereignPirtm.Admissibility
open Library

inductive ExprNode where
  | literal (literalValue : UInt64)
  | ident (identName : Bytes)
  | atom (primeIndex : UInt64)
  | binary (binaryOp : Bytes) (binaryOperands : List ExprNode)
  | call (callName : Bytes) (callArgs : List ExprNode)
  | ifThenElse (ifCond : Option ExprNode) (thenBranch elseBranch : List ExprNode)
  | successor (inner : Option ExprNode)
  | stratumBoundary (inner : Option ExprNode)

structure ValidationError where
  code : Bytes
  message : Bytes
  receiptHash : Bytes
deriving DecidableEq

structure ValidationResult where
  ok : Bool
  errors : List ValidationError
deriving DecidableEq

namespace ValidationResult

def new : ValidationResult := ⟨true, []⟩

def addError (r : ValidationResult) (code message : Bytes) : ValidationResult :=
  { ok := false, errors := r.errors ++ [{ code := code, message := message, receiptHash := [] }] }

end ValidationResult

/-! ## The checks -/

def ExprNode.isLiteral (value : UInt64) : ExprNode → Bool
  | .literal v => v == value
  | _ => false

def checkPrimeIndex (prime : UInt64) (r : ValidationResult) : Bool × ValidationResult :=
  if prime < 2 then
    (false, r.addError (str "ADM001")
      (str "ADM001: Invalid prime index " ++ decimal prime.toNat ++ str " (must be >= 2)"))
  else (true, r)

def validOps : List Bytes := [str "add", str "sub", str "mul", str "div"]

def checkBinaryOp (op : Bytes) (operands : List ExprNode) (r : ValidationResult) :
    Bool × ValidationResult :=
  if op ∉ validOps then
    (false, r.addError (str "ADM002") (str "Unknown binary operator: " ++ op))
  else if operands.length ≠ 2 then
    (false, r.addError (str "ADM003") (str "Binary operator requires exactly 2 operands"))
  else if op = str "div" ∧ operands[1]?.any (ExprNode.isLiteral 0) then
    (false, r.addError (str "ADM004") (str "Division by zero"))
  else (true, r)

def validFuncs : List Bytes := [str "Ap", str "succ", str "stratum_boundary"]

def checkCall (name : Bytes) (args : List ExprNode) (r : ValidationResult) :
    Bool × ValidationResult :=
  if name ∉ validFuncs then
    (false, r.addError (str "ADM005") (str "Unknown function: " ++ name))
  else if name = str "Ap" ∧ args.length ≠ 1 then
    (false, r.addError (str "ADM006") (str "Ap() requires exactly 1 argument"))
  else (true, r)

def checkStratumBoundary (inner : ExprNode) (r : ValidationResult) : Bool × ValidationResult :=
  if inner.isLiteral 0 then
    (false, r.addError (str "ADM007") (str "Invalid boundary zero in StratumBoundary"))
  else (true, r)

def checkSuccessorBounds (value : UInt64) (r : ValidationResult) : Bool × ValidationResult :=
  if value > 9223372036854775807 then
    (false, r.addError (str "ADM008")
      (str "ADM008: Successor bounds check violation: " ++ decimal value.toNat ++
        str " > i64::MAX"))
  else (true, r)

/-! ## The traversal -/

/-- What `validate_expr` does at a `Successor` after its inner node. -/
def checkSuccessorInner (inner : Option ExprNode) (r : ValidationResult) : ValidationResult :=
  match inner with
  | some (.literal value) => if r.ok then (checkSuccessorBounds value r).2 else r
  | _ => r

/-- What `validate_expr` does at a `StratumBoundary` after its inner node. -/
def checkBoundaryInner (inner : Option ExprNode) (r : ValidationResult) : ValidationResult :=
  match inner with
  | some inner => if r.ok then (checkStratumBoundary inner r).2 else r
  | none => r

mutual

def validateExpr : ExprNode → ValidationResult → ValidationResult
  | .literal _, r => r
  | .ident _, r => r
  | .atom primeIndex, r => (checkPrimeIndex primeIndex r).2
  | .binary op operands, r => (checkBinaryOp op operands r).2
  | .call name args, r => (checkCall name args r).2
  | .ifThenElse cond thenBranch elseBranch, r =>
      validateEach elseBranch (validateEach thenBranch (validateMaybe cond r))
  | .successor inner, r => checkSuccessorInner inner (validateMaybe inner r)
  | .stratumBoundary inner, r => checkBoundaryInner inner (validateMaybe inner r)

def validateMaybe : Option ExprNode → ValidationResult → ValidationResult
  | none, r => r
  | some expr, r => validateExpr expr r

def validateEach : List ExprNode → ValidationResult → ValidationResult
  | [], r => r
  | stmt :: stmts, r => validateEach stmts (validateExpr stmt r)

end

def validate (expr : ExprNode) : ValidationResult := validateExpr expr .new

/-- The loop of `validate_program`, which stops at the first statement that is not ok. -/
def validateStmts : List ExprNode → ValidationResult → ValidationResult
  | [], r => r
  | stmt :: stmts, r =>
      let r := validateExpr stmt r
      if r.ok then validateStmts stmts r else r

def validateProgram (stmts : List ExprNode) : ValidationResult := validateStmts stmts .new

end SovereignPirtm.Admissibility
