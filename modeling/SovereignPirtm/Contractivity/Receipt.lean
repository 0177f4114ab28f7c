import SovereignPirtm.Library.Text

/-!
# Receipts and their generator

`ContractivityReceipt` and `ReceiptGenerator`. The hash function is an argument, `sha256_hex` in the
source, and so is the clock reading of each call.
-/

namespace SovereignPirtm.Contractivity
open Library

structure ContractivityReceipt where
  primeIndex : UInt64
  hash : Bytes
  timestampNs : UInt64
  operatorName : Bytes
  merkleRoot : Bytes
deriving DecidableEq

structure ReceiptGenerator where
  counter : UInt64

namespace ReceiptGenerator

def new : ReceiptGenerator := ⟨0⟩

/-! ## Producing receipts -/

def preimage (operatorName : Bytes) (operands : List UInt64) (now counter : UInt64) : Bytes :=
  operatorName ++ operands.flatMap (fun x => str ":" ++ decimal x.toNat) ++
    str ":" ++ decimal now.toNat ++ str ":" ++ decimal counter.toNat

/-- What the four `generate_*` functions have in common. -/
def issue (hash : Bytes → Bytes) (g : ReceiptGenerator) (operatorName : Bytes)
    (operands : List UInt64) (primeIndex now : UInt64) : ContractivityReceipt × ReceiptGenerator :=
  let digest := hash (preimage operatorName operands now g.counter)
  ({ primeIndex := primeIndex, hash := digest, timestampNs := now, operatorName := operatorName,
     merkleRoot := digest }, ⟨g.counter + 1⟩)

def generateOperatorAtom (hash : Bytes → Bytes) (g : ReceiptGenerator) (primeIndex now : UInt64) :
    ContractivityReceipt × ReceiptGenerator :=
  g.issue hash (str "operator_atom") [primeIndex] primeIndex now

def generateBinaryOp (hash : Bytes → Bytes) (g : ReceiptGenerator) (opKind : Bytes)
    (leftPrime rightPrime resultPrime now : UInt64) : ContractivityReceipt × ReceiptGenerator :=
  g.issue hash (str "binary_" ++ opKind) [leftPrime, rightPrime, resultPrime] resultPrime now

def generateStratumBoundary (hash : Bytes → Bytes) (g : ReceiptGenerator) (innerPrime now : UInt64) :
    ContractivityReceipt × ReceiptGenerator :=
  g.issue hash (str "stratum_boundary") [innerPrime] innerPrime now

def generateSuccessor (hash : Bytes → Bytes) (g : ReceiptGenerator) (innerPrime now : UInt64) :
    ContractivityReceipt × ReceiptGenerator :=
  g.issue hash (str "successor") [innerPrime] (innerPrime + 1) now

inductive Call where
  | operatorAtom (primeIndex : UInt64)
  | binaryOp (opKind : Bytes) (leftPrime rightPrime resultPrime : UInt64)
  | stratumBoundary (innerPrime : UInt64)
  | successor (innerPrime : UInt64)

def generate (hash : Bytes → Bytes) (g : ReceiptGenerator) (call : Call) (now : UInt64) :
    ContractivityReceipt × ReceiptGenerator :=
  match call with
  | .operatorAtom primeIndex => g.generateOperatorAtom hash primeIndex now
  | .binaryOp opKind left right result => g.generateBinaryOp hash opKind left right result now
  | .stratumBoundary innerPrime => g.generateStratumBoundary hash innerPrime now
  | .successor innerPrime => g.generateSuccessor hash innerPrime now

def run (hash : Bytes → Bytes) : ReceiptGenerator → List (Call × UInt64) → List ContractivityReceipt
  | _, [] => []
  | g, (call, now) :: calls =>
      let (receipt, g) := g.generate hash call now
      receipt :: run hash g calls

/-! ## Checking receipts -/

def verifyFrom (hash : Bytes → Bytes) (previous : ContractivityReceipt) :
    List ContractivityReceipt → Bool
  | [] => true
  | receipt :: chain =>
      if receipt.merkleRoot.isEmpty then false
      else
        -- computed in the source as well, and not compared with anything
        let _expected := hash (previous.hash ++ str ":" ++ receipt.hash)
        verifyFrom hash receipt chain

def verifyChain (hash : Bytes → Bytes) : List ContractivityReceipt → Bool
  | [] => true
  | receipt :: chain => verifyFrom hash receipt chain

def computeMerkleRoot (hash : Bytes → Bytes) : List ContractivityReceipt → Bytes
  | [] => []
  | [receipt] => receipt.hash
  | receipt :: chain =>
      chain.foldl (fun root next => hash (root ++ str ":" ++ next.hash)) receipt.hash

end ReceiptGenerator
end SovereignPirtm.Contractivity
