import SovereignPirtm.Library.Chain
import SovereignPirtm.Contractivity.Absorption
import SovereignPirtm.Contractivity.Receipt

/-!
# Checking a chain of receipts

What `compute_merkle_root` folds, and what `verify_chain` accepts.
-/

namespace SovereignPirtm.Contractivity
open Library ReceiptGenerator

def linkHash (hash : Bytes → Bytes) (root next : Bytes) : Bytes := hash (root ++ str ":" ++ next)

theorem computeMerkleRoot_eq (hash : Bytes → Bytes) (chain : List ContractivityReceipt) :
    computeMerkleRoot hash chain =
      chainRoot [] (linkHash hash) (chain.map ContractivityReceipt.hash) := by
  match chain with
  | [] => rfl
  | [receipt] => rfl
  | receipt :: next :: chain => simp [computeMerkleRoot, chainRoot, List.foldl_map, linkHash]

/-- The text hashed when the receipt at position `k` is linked to the receipts before it. -/
def linkText (hash : Bytes → Bytes) (chain : List ContractivityReceipt) (k : Nat)
    (within : k < chain.length) : Bytes :=
  computeMerkleRoot hash (chain.take k) ++ str ":" ++ chain[k].hash

theorem computeMerkleRoot_take_succ (hash : Bytes → Bytes) {chain : List ContractivityReceipt}
    {k : Nat} (positive : 0 < k) (within : k < chain.length) :
    computeMerkleRoot hash (chain.take (k+1)) = hash (linkText hash chain k within) := by
  have step := chainRoot_take_succ [] (linkHash hash) positive
    (show k < (chain.map ContractivityReceipt.hash).length by simpa using within)
  rw [← List.map_take, ← List.map_take, ← computeMerkleRoot_eq, ← computeMerkleRoot_eq,
    List.getElem_map] at step
  exact step

/-! ## The verifier -/

def Linked (hash : Bytes → Bytes) (chain : List ContractivityReceipt) : Prop :=
  ∀ i, 1 ≤ i → ∀ within : i < chain.length,
    chain[i].merkleRoot = computeMerkleRoot hash (chain.take (i+1))

theorem verifyFrom_iff (hash : Bytes → Bytes) (previous : ContractivityReceipt)
    (chain : List ContractivityReceipt) :
    verifyFrom hash previous chain = true ↔ ∀ receipt ∈ chain, receipt.merkleRoot ≠ [] := by
  induction chain generalizing previous with
  | nil => simp [verifyFrom]
  | cons receipt chain ih =>
      rw [verifyFrom, List.forall_mem_cons]
      split
      · rename_i empty
        simp [List.isEmpty_iff.mp empty]
      · rename_i filled
        rw [ih receipt]
        simp [List.isEmpty_iff] at filled
        simp [filled]

theorem verifyChain_iff (hash : Bytes → Bytes) (chain : List ContractivityReceipt) :
    verifyChain hash chain = true ↔ ∀ receipt ∈ chain.tail, receipt.merkleRoot ≠ [] := by
  cases chain with
  | nil => simp [verifyChain]
  | cons receipt chain => exact verifyFrom_iff hash receipt chain

/-- A broken chain is found out exactly when one of its roots after the first is empty. -/
theorem verifyChain_detects_iff (chain : List ContractivityReceipt) :
    (verifyChain sha256Hex chain = true → Linked sha256Hex chain) ↔
      Linked sha256Hex chain ∨ ∃ receipt ∈ chain.tail, receipt.merkleRoot = [] := by
  rw [verifyChain_iff]
  constructor
  · intro detects
    by_cases filled : ∀ receipt ∈ chain.tail, receipt.merkleRoot ≠ []
    · exact .inl (detects filled)
    · push Not at filled
      exact .inr filled
  · rintro (linked | ⟨receipt, member, empty⟩) filled
    · exact linked
    · exact absurd empty (filled receipt member)

def forged : ContractivityReceipt := ⟨2, [], 0, str "operator_atom", [0]⟩

theorem verifyChain_forged :
    verifyChain sha256Hex [forged, forged] = true ∧ ¬ Linked sha256Hex [forged, forged] := by
  refine ⟨(verifyChain_iff _ _).mpr (by decide), fun linked => ?_⟩
  have root : forged.merkleRoot = sha256Hex (linkText sha256Hex [forged, forged] 1 (by decide)) :=
    (linked 1 le_rfl (by decide)).trans
      (computeMerkleRoot_take_succ _ (by decide) (by decide))
  have size := congrArg List.length root
  rw [sha256Hex_length] at size
  exact absurd size (by decide)

end SovereignPirtm.Contractivity
