import SovereignPirtm.Library.Text
import SovereignPirtm.Library.Blocks
import SovereignPirtm.Library.Fips180
import SovereignPirtm.Contractivity.Sha256
import SovereignPirtm.Contractivity.Compression
import SovereignPirtm.Contractivity.Streaming
import SovereignPirtm.Contractivity.Digest
import SovereignPirtm.Contractivity.Conformance
import SovereignPirtm.Contractivity.Absorption
import SovereignPirtm.Contractivity.Chunks
import SovereignPirtm.Library.Traced
import SovereignPirtm.Contractivity.Accesses
import SovereignPirtm.Contractivity.Receipt
import SovereignPirtm.Library.Chain
import SovereignPirtm.Contractivity.ReceiptChain
import SovereignPirtm.Contractivity.Binding
import SovereignPirtm.Contractivity.Generation
import SovereignPirtm.Contractivity.Preimages
import SovereignPirtm.Library.Json
import SovereignPirtm.Library.CompactJson
import SovereignPirtm.Contractivity.Serialization
import SovereignPirtm.Contractivity.Recovery
import SovereignPirtm.Library.Script
import SovereignPirtm.Bridge.LeanFFI
import SovereignPirtm.Bridge.Verdicts
import SovereignPirtm.Library.Transition
import SovereignPirtm.Spine.SedonaSpine
import SovereignPirtm.Spine.CrossingLog
import SovereignPirtm.Spine.Clients
import SovereignPirtm.Spine.OneShot
import SovereignPirtm.Library.Server
import SovereignPirtm.Spine.Registry
import SovereignPirtm.Admissibility.Validator
import SovereignPirtm.Library.Tree
import SovereignPirtm.Admissibility.Soundness
import SovereignPirtm.Admissibility.Errors
import SovereignPirtm.Library.Gated
import SovereignPirtm.Admissibility.Faults
import SovereignPirtm.Admissibility.Composition
import SovereignPirtm.Admissibility.Wrapping
import SovereignPirtm.Admissibility.Rewriting
import SovereignPirtm.Library.Roots
import SovereignPirtm.Multiplicity.Functor
import SovereignPirtm.Multiplicity.Power
import SovereignPirtm.Multiplicity.Exactness
import SovereignPirtm.Multiplicity.Canonical
import SovereignPirtm.Multiplicity.Hazards
import SovereignPirtm.Multiplicity.Limits
import SovereignPirtm.Multiplicity.Operations
import SovereignPirtm.Multiplicity.Laws
import SovereignPirtm.Lowering.Circuit
import SovereignPirtm.Lowering.Program
import SovereignPirtm.Lowering.Emission
import SovereignPirtm.Lowering.Gates
import SovereignPirtm.Lowering.Invariant
import SovereignPirtm.Library.Swaps
import SovereignPirtm.Lowering.Permutation
import SovereignPirtm.Library.Parity
import SovereignPirtm.Lowering.Addition
import SovereignPirtm.Lowering.Acceptance
import SovereignPirtm.Lowering.Outputs
import SovereignPirtm.Library.Superposition
import SovereignPirtm.Library.Qubits
import SovereignPirtm.Lowering.Meaning
import SovereignPirtm.Lowering.Reversibility
import SovereignPirtm.Lowering.Interpretation
import SovereignPirtm.Library.Pauli
import SovereignPirtm.Lowering.Stabilizers
import SovereignPirtm.Library.Tableau
import SovereignPirtm.Lowering.Equivalence
import SovereignPirtm.Library.Outcomes
import SovereignPirtm.Lowering.Outcomes
import SovereignPirtm.Library.Involutions
import SovereignPirtm.Lowering.Entanglement
import SovereignPirtm.Controller.ZenoFinton
import SovereignPirtm.Library.Cascade
import SovereignPirtm.Controller.Alarm
import SovereignPirtm.Controller.Gain
import SovereignPirtm.Library.FixedPoint
import SovereignPirtm.Controller.Report
import SovereignPirtm.Controller.Detection
