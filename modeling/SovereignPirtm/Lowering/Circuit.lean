import Mathlib.Tactic

/-!
# Circuits

The module `core` of the source: gates, measurements, and the two mutators of `Circuit`. Indices are
`usize` in the source and never computed with.
-/

namespace SovereignPirtm.Lowering

inductive CircuitError where
  | qubitOutOfBounds (index numQubits : Nat)
  | duplicateMeasurement (index : Nat)
  | emptyCircuit
deriving DecidableEq

structure Qubit where
  index : Nat
deriving DecidableEq

inductive SingleGate where
  | pauliX | pauliY | pauliZ | hadamard | tGate | sGate
deriving DecidableEq

inductive DoubleGate where
  | cnot | cz | swap
deriving DecidableEq

/-- The angle of a rotation is kept as the bits of the source's `f64`. -/
inductive Gate where
  | single (gate : SingleGate) (target : Qubit)
  | double (gate : DoubleGate) (control target : Qubit)
  | rotation (target : Qubit) (angle : UInt64)
deriving DecidableEq

structure Measurement where
  qubit : Qubit
  classicalBit : Nat
deriving DecidableEq

structure Circuit where
  numQubits : Nat
  numClassicalBits : Nat
  gates : List Gate
  measurements : List Measurement
deriving DecidableEq

def Qubit.check (numQubits : Nat) (q : Qubit) : Except CircuitError Unit :=
  if q.index ≥ numQubits then .error (.qubitOutOfBounds q.index numQubits) else .ok ()

def Gate.check (numQubits : Nat) : Gate → Except CircuitError Unit
  | .single _ target => target.check numQubits
  | .double _ control target => do
      control.check numQubits
      target.check numQubits
  | .rotation target _ => target.check numQubits

namespace Circuit

def new (numQubits numClassicalBits : Nat) : Circuit :=
  { numQubits := numQubits, numClassicalBits := numClassicalBits, gates := [], measurements := [] }

def addGate (c : Circuit) (gate : Gate) : Except CircuitError Unit × Circuit :=
  match gate.check c.numQubits with
  | .error e => (.error e, c)
  | .ok () => (.ok (), { c with gates := c.gates ++ [gate] })

def addMeasurement (c : Circuit) (qubit : Qubit) (classicalBit : Nat) :
    Except CircuitError Unit × Circuit :=
  match qubit.check c.numQubits with
  | .error e => (.error e, c)
  | .ok () =>
      if c.measurements.any (·.qubit = qubit) then (.error (.duplicateMeasurement qubit.index), c)
      else (.ok (), { c with measurements := c.measurements ++ [⟨qubit, classicalBit⟩] })

def validate (c : Circuit) : Except CircuitError Unit :=
  if c.gates.isEmpty ∧ c.measurements.isEmpty then .error .emptyCircuit else .ok ()

/-! ## Calls -/

inductive Call where
  | addGate (gate : Gate)
  | addMeasurement (qubit : Qubit) (classicalBit : Nat)

def call (c : Circuit) : Call → Except CircuitError Unit × Circuit
  | .addGate gate => c.addGate gate
  | .addMeasurement qubit classicalBit => c.addMeasurement qubit classicalBit

def calls (c : Circuit) (calls : List Call) : Circuit :=
  calls.foldl (fun c k => (c.call k).2) c

end Circuit
end SovereignPirtm.Lowering
