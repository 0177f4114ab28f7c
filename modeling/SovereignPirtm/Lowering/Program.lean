import SovereignPirtm.Lowering.Circuit

/-!
# Lowering tensor programs

`PirtnProgram::lower_to_circuit` and the pass around it. The source throws the result of every
`add_gate` away; here it is kept next to the circuit.
-/

namespace SovereignPirtm.Lowering

inductive PirtnError where
  | invalidShape
  | qubitOutOfBounds (index : Nat)
  | emptyProgram
deriving DecidableEq

inductive TensorOp where
  | matMul (a b c : Nat)
  | add (a b out : Nat)
  | contract (a b out axis : Nat)
  | permute (input out : Nat) (axes : List Nat)
  | scalarMul (tensor out : Nat) (scalar : UInt64)
  | reshape (input : Nat) (shape : List Nat)
deriving DecidableEq

structure PirtnProgram where
  ops : List TensorOp
  numTensors : Nat
deriving DecidableEq

/-- The circuit under construction, and what the calls of `add_gate` returned so far. -/
structure Emission where
  circuit : Circuit
  discarded : List (Except CircuitError Unit)

/-- `let _ = circuit.add_gate(gate)` -/
def Emission.emit (s : Emission) (gate : Gate) : Emission :=
  let (result, circuit) := s.circuit.addGate gate
  { circuit := circuit, discarded := s.discarded ++ [result] }

def emitSwaps (n : Nat) (s : Emission) (axes : List Nat) : Emission :=
  axes.zipIdx.foldl (fun s (target, i) =>
    if i ≠ target ∧ target < n then s.emit (.double .swap ⟨i⟩ ⟨target⟩) else s) s

def lowerOp (n : Nat) (s : Emission) : TensorOp → Except PirtnError Emission
  | .matMul a b c =>
      if a ≥ n ∨ b ≥ n ∨ c ≥ n then .error (.qubitOutOfBounds n)
      else .ok (s.emit (.single .hadamard ⟨a⟩)
        |>.emit (.double .cnot ⟨a⟩ ⟨b⟩)
        |>.emit (.single .hadamard ⟨a⟩))
  | .add a b out =>
      if a ≥ n ∨ b ≥ n ∨ out ≥ n then .error (.qubitOutOfBounds n)
      else .ok (s.emit (.double .cnot ⟨a⟩ ⟨out⟩)
        |>.emit (.double .cnot ⟨b⟩ ⟨out⟩))
  | .contract a b out _ =>
      if a ≥ n ∨ b ≥ n ∨ out ≥ n then .error (.qubitOutOfBounds n)
      else .ok (s.emit (.single .hadamard ⟨out⟩)
        |>.emit (.double .cnot ⟨a⟩ ⟨out⟩)
        |>.emit (.double .cnot ⟨b⟩ ⟨out⟩)
        |>.emit (.single .hadamard ⟨out⟩))
  | .permute input out axes =>
      if input ≥ n ∨ out ≥ n then .error (.qubitOutOfBounds n)
      else .ok (emitSwaps n s axes)
  | .scalarMul tensor out scalar =>
      if tensor ≥ n ∨ out ≥ n then .error (.qubitOutOfBounds n)
      else if scalar = 1 then .ok (s.emit (.double .cnot ⟨tensor⟩ ⟨out⟩))
      else if scalar = 2 then
        .ok (s.emit (.single .pauliX ⟨tensor⟩)
          |>.emit (.double .cnot ⟨tensor⟩ ⟨out⟩)
          |>.emit (.single .pauliX ⟨tensor⟩))
      else .ok s
  | .reshape _ _ => .ok s

def lowerOps (n : Nat) (ops : List TensorOp) : Except PirtnError Emission :=
  ops.foldlM (lowerOp n) ⟨.new n n, []⟩

namespace PirtnProgram

def new (numTensors : Nat) : PirtnProgram := { ops := [], numTensors := numTensors }

def addOp (p : PirtnProgram) (op : TensorOp) : PirtnProgram := { p with ops := p.ops ++ [op] }

def width (p : PirtnProgram) : Nat := max p.numTensors 2

def lowering (p : PirtnProgram) : Except PirtnError Emission :=
  if p.ops.isEmpty then .error .emptyProgram
  else lowerOps p.width p.ops

def lowerToCircuit (p : PirtnProgram) : Except PirtnError Circuit :=
  p.lowering.map Emission.circuit

def qubitCount (p : PirtnProgram) : Nat := p.numTensors

end PirtnProgram

/-- `PirtnLower::run` -/
def pirtnLower (p : PirtnProgram) : Except CircuitError Circuit :=
  p.lowerToCircuit.mapError fun _ => .emptyCircuit

end SovereignPirtm.Lowering
