import SovereignPirtm.Contractivity.ReceiptChain

/-!
# What a Merkle root binds

Two chains with one root, for any hash function. Chains of one length have the same hashes; a longer
chain may also be the shorter one with its first receipt unfolded, since nothing tells a root from
the hash of a receipt. Everything else takes a collision.
-/

namespace SovereignPirtm.Contractivity
open Library ReceiptGenerator
variable {hash : Bytes → Bytes}

def linkPair (root next : Bytes) : Bytes := root ++ str ":" ++ next

theorem linkPair_injective {root₁ root₂ next₁ next₂ : Bytes} (size₁ : next₁.length = 64)
    (size₂ : next₂.length = 64) (same : linkPair root₁ next₁ = linkPair root₂ next₂) :
    root₁ = root₂ ∧ next₁ = next₂ := by
  obtain ⟨front, last⟩ := List.append_inj' same (size₁.trans size₂.symm)
  exact ⟨List.append_cancel_right front, last⟩

theorem computeMerkleRoot_hashRoot (chain : List ContractivityReceipt) :
    computeMerkleRoot hash chain =
      hashRoot [] hash linkPair (chain.map ContractivityReceipt.hash) :=
  computeMerkleRoot_eq hash chain

theorem linkText_rootText (chain : List ContractivityReceipt) (k : Nat)
    (within : k < chain.length) :
    linkText hash chain k within = rootText [] hash linkPair
      (chain.map ContractivityReceipt.hash) k (by simpa using within) := by
  rw [linkText, computeMerkleRoot_hashRoot, List.map_take, rootText, List.getElem_map, linkPair]

def Hashed (hash : Bytes → Bytes) (chain : List ContractivityReceipt) (text : Bytes) : Prop :=
  ∃ i, 1 ≤ i ∧ ∃ within : i < chain.length, text = linkText hash chain i within

section TwoChains
variable {chain₁ chain₂ : List ContractivityReceipt}
  (sized₁ : ∀ receipt ∈ chain₁, receipt.hash.length = 64)
  (sized₂ : ∀ receipt ∈ chain₂, receipt.hash.length = 64)
include sized₁ sized₂

theorem computeMerkleRoot_binds {d : Nat} (nonempty : chain₁ ≠ [])
    (lengths : chain₂.length = chain₁.length + d)
    (same : computeMerkleRoot hash chain₁ = computeMerkleRoot hash chain₂) :
    chain₁.map ContractivityReceipt.hash = computeMerkleRoot hash (chain₂.take (d+1)) ::
        (chain₂.drop (d+1)).map ContractivityReceipt.hash ∨
      ∃ k, 1 ≤ k ∧ ∃ (within₁ : k < chain₁.length) (within₂ : k + d < chain₂.length),
        linkText hash chain₁ k within₁ ≠ linkText hash chain₂ (k+d) within₂ ∧
        hash (linkText hash chain₁ k within₁) = hash (linkText hash chain₂ (k+d) within₂) := by
  rw [computeMerkleRoot_hashRoot, computeMerkleRoot_hashRoot] at same
  have bound := hashRoot_binds (P := fun next => next.length = 64) linkPair_injective
    (by simpa using nonempty) (by simpa using lengths) (by simpa using sized₁)
    (by simpa using sized₂) same
  simpa only [computeMerkleRoot_hashRoot, linkText_rootText, List.map_take, List.map_drop,
    List.length_map] using bound

theorem computeMerkleRoot_binds_contents (nonempty : chain₁ ≠ [])
    (lengths : chain₁.length = chain₂.length)
    (same : computeMerkleRoot hash chain₁ = computeMerkleRoot hash chain₂) :
    chain₁.map ContractivityReceipt.hash = chain₂.map ContractivityReceipt.hash ∨
      ∃ i, 1 ≤ i ∧ ∃ (within₁ : i < chain₁.length) (within₂ : i < chain₂.length),
        linkText hash chain₁ i within₁ ≠ linkText hash chain₂ i within₂ ∧
        hash (linkText hash chain₁ i within₁) = hash (linkText hash chain₂ i within₂) := by
  rcases computeMerkleRoot_binds (d := 0) sized₁ sized₂ nonempty lengths.symm same with
    collapsed | collision
  · left
    cases chain₂ with
    | nil => exact absurd (List.length_eq_zero_iff.mp lengths) nonempty
    | cons receipt chain₂ => exact collapsed
  · exact .inr collision

end TwoChains

/-! ## Two chains with one root -/

theorem computeMerkleRoot_pair (first second : ContractivityReceipt) :
    computeMerkleRoot hash [first, second] = hash (linkPair first.hash second.hash) := rfl

/-- The last byte of a linked hash lies behind the complete blocks of the text. -/
theorem sha256Hex_linkPair_last {root front : Bytes} (x y : UInt8) (size : root.length = 64)
    (size' : front.length = 63) :
    sha256Hex (linkPair root (front ++ [x])) = sha256Hex (linkPair root (front ++ [y])) := by
  have whole : (linkPair root front).length = 128 := by
    have colon : (str ":").length = 1 := rfl
    simp [linkPair, size, size', colon]
  have complete (z : UInt8) :
      blocks 64 (linkPair root front ++ [z]) = blocks 64 (linkPair root front) := by
    refine (blocks_append_short _ _ (by decide) ?_).1
    simp [rest_length, whole]
  rw [linkPair, linkPair, ← List.append_assoc, ← List.append_assoc, ← linkPair]
  apply sha256Hex_eq_of_blocks
  · simp
  · simp [whole]
  · simp [whole]
  · rw [complete x, complete y]

def leaf (hash : Bytes) : ContractivityReceipt := ⟨2, hash, 0, str "operator_atom", hash⟩

def twin (last : Char) : List ContractivityReceipt :=
  [leaf (List.replicate 64 (charByte '0')),
    leaf (List.replicate 63 (charByte '0') ++ [charByte last])]

theorem twin_sized (last : Char) : ∀ receipt ∈ twin last, receipt.hash.length = 64 := by
  simp [twin, leaf]

theorem twin_same_root :
    computeMerkleRoot sha256Hex (twin '0') = computeMerkleRoot sha256Hex (twin '1') := by
  rw [twin, twin, computeMerkleRoot_pair, computeMerkleRoot_pair]
  exact sha256Hex_linkPair_last _ _ List.length_replicate List.length_replicate

theorem computeMerkleRoot_binds_contents_twins :
    (twin '0').map ContractivityReceipt.hash ≠ (twin '1').map ContractivityReceipt.hash ∧
      ∃ i, 1 ≤ i ∧ ∃ (within₁ : i < (twin '0').length) (within₂ : i < (twin '1').length),
        linkText sha256Hex (twin '0') i within₁ ≠ linkText sha256Hex (twin '1') i within₂ ∧
        sha256Hex (linkText sha256Hex (twin '0') i within₁) =
          sha256Hex (linkText sha256Hex (twin '1') i within₂) := by
  have different :
      (twin '0').map ContractivityReceipt.hash ≠ (twin '1').map ContractivityReceipt.hash := by
    decide
  have bound := computeMerkleRoot_binds_contents (twin_sized '0') (twin_sized '1')
    (List.cons_ne_nil _ _) rfl twin_same_root
  exact ⟨different, bound.resolve_left different⟩

/-- The shorter chain is the longer one with its first receipts replaced by one whose hash is their
root. -/
def Collapsed (hash : Bytes → Bytes) (shorter longer : List ContractivityReceipt) : Prop :=
  let d := longer.length - shorter.length
  shorter.map ContractivityReceipt.hash = computeMerkleRoot hash (longer.take (d+1)) ::
    (longer.drop (d+1)).map ContractivityReceipt.hash

theorem Collapsed.same_root {shorter longer : List ContractivityReceipt} (nonempty : shorter ≠ [])
    (lengths : shorter.length < longer.length) (collapsed : Collapsed hash shorter longer) :
    computeMerkleRoot hash shorter = computeMerkleRoot hash longer := by
  have positive := List.length_pos_iff.mpr nonempty
  rw [computeMerkleRoot_hashRoot, collapsed, computeMerkleRoot_hashRoot, List.map_take,
    List.map_drop, hashRoot_collapse (by rw [List.length_map]; omega), computeMerkleRoot_hashRoot]

/-- Chains of different lengths with one root are collapsed into each other, or two of the texts
hashed on the way collide. -/
theorem computeMerkleRoot_binds_length {shorter longer : List ContractivityReceipt}
    (sized₁ : ∀ receipt ∈ shorter, receipt.hash.length = 64)
    (sized₂ : ∀ receipt ∈ longer, receipt.hash.length = 64) (nonempty : shorter ≠ [])
    (lengths : shorter.length < longer.length)
    (same : computeMerkleRoot hash shorter = computeMerkleRoot hash longer) :
    Collapsed hash shorter longer ∨
      ∃ s t, (Hashed hash shorter s ∨ Hashed hash longer s) ∧
        (Hashed hash shorter t ∨ Hashed hash longer t) ∧ s ≠ t ∧ hash s = hash t := by
  rcases computeMerkleRoot_binds (d := longer.length - shorter.length) sized₁ sized₂ nonempty
    (by omega) same with collapsed | collision
  · exact .inl collapsed
  · obtain ⟨k, positive, within₁, within₂, different, equal⟩ := collision
    exact .inr ⟨_, _, .inl ⟨k, positive, within₁, rfl⟩,
      .inr ⟨_, Nat.le_add_right_of_le positive, within₂, rfl⟩, different, equal⟩

/-! ## A chain and its collapse -/

def pairOfLeaves : List ContractivityReceipt := [leaf (sha256Hex []), leaf (sha256Hex [])]

def collapsedPair : List ContractivityReceipt := [leaf (computeMerkleRoot sha256Hex pairOfLeaves)]

theorem pairOfLeaves_sized : ∀ receipt ∈ pairOfLeaves, receipt.hash.length = 64 := by
  simp [pairOfLeaves, leaf]

theorem collapsedPair_root :
    computeMerkleRoot sha256Hex collapsedPair = computeMerkleRoot sha256Hex pairOfLeaves := by
  rw [collapsedPair, computeMerkleRoot, leaf]

theorem collapsedPair_sized : ∀ receipt ∈ collapsedPair, receipt.hash.length = 64 := by
  intro receipt member
  rw [collapsedPair, List.mem_singleton] at member
  rw [member, leaf, pairOfLeaves, computeMerkleRoot_pair, sha256Hex_length]

theorem computeMerkleRoot_binds_length_pair :
    Collapsed sha256Hex collapsedPair pairOfLeaves ∨
      ∃ s t, (Hashed sha256Hex collapsedPair s ∨ Hashed sha256Hex pairOfLeaves s) ∧
        (Hashed sha256Hex collapsedPair t ∨ Hashed sha256Hex pairOfLeaves t) ∧
        s ≠ t ∧ sha256Hex s = sha256Hex t :=
  computeMerkleRoot_binds_length collapsedPair_sized pairOfLeaves_sized (List.cons_ne_nil _ _)
    (by decide) collapsedPair_root

theorem collapsedPair_same_root :
    collapsedPair.length ≠ pairOfLeaves.length ∧
      (∀ receipt ∈ collapsedPair, receipt.hash.length = 64) ∧
      (∀ receipt ∈ pairOfLeaves, receipt.hash.length = 64) ∧
      computeMerkleRoot sha256Hex collapsedPair = computeMerkleRoot sha256Hex pairOfLeaves ∧
      ¬ ∃ s t, (Hashed sha256Hex collapsedPair s ∨ Hashed sha256Hex pairOfLeaves s) ∧
        (Hashed sha256Hex collapsedPair t ∨ Hashed sha256Hex pairOfLeaves t) ∧
        s ≠ t ∧ sha256Hex s = sha256Hex t := by
  have only (text : Bytes)
      (hashed : Hashed sha256Hex collapsedPair text ∨ Hashed sha256Hex pairOfLeaves text) :
      text = linkText sha256Hex pairOfLeaves 1 (by decide) := by
    rcases hashed with ⟨i, positive, within, -⟩ | ⟨i, positive, within, rfl⟩
    · simp [collapsedPair] at within
      omega
    · obtain rfl : i = 1 := by
        simp [pairOfLeaves] at within
        omega
      rfl
  refine ⟨by decide, collapsedPair_sized, pairOfLeaves_sized, collapsedPair_root, ?_⟩
  rintro ⟨s, t, hashed₁, hashed₂, different, -⟩
  exact different ((only s hashed₁).trans (only t hashed₂).symm)

end SovereignPirtm.Contractivity
