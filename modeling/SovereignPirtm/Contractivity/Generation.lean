import SovereignPirtm.Contractivity.ReceiptChain

/-!
# The chain of generated receipts

What a run of a generator seals into its receipts, and how their roots relate to the root of the
receipts before them.
-/

namespace SovereignPirtm.Contractivity.ReceiptGenerator
open Library

/-! ## The texts of a run -/

def Call.operatorName : Call → Bytes
  | .operatorAtom _ => str "operator_atom"
  | .binaryOp opKind _ _ _ => str "binary_" ++ opKind
  | .stratumBoundary _ => str "stratum_boundary"
  | .successor _ => str "successor"

def Call.operands : Call → List UInt64
  | .operatorAtom primeIndex => [primeIndex]
  | .binaryOp _ left right result => [left, right, result]
  | .stratumBoundary innerPrime => [innerPrime]
  | .successor innerPrime => [innerPrime]

def preimages : ReceiptGenerator → List (Call × UInt64) → List Bytes
  | _, [] => []
  | g, (call, now) :: calls =>
      preimage call.operatorName call.operands now g.counter :: preimages ⟨g.counter + 1⟩ calls

theorem generate_spec (hash : Bytes → Bytes) (g : ReceiptGenerator) (call : Call) (now : UInt64) :
    let text := preimage call.operatorName call.operands now g.counter
    (g.generate hash call now).1.hash = hash text ∧
      (g.generate hash call now).1.merkleRoot = hash text ∧
      (g.generate hash call now).2 = ⟨g.counter + 1⟩ := by
  cases call <;> exact ⟨rfl, rfl, rfl⟩

theorem run_hashes (hash : Bytes → Bytes) (g : ReceiptGenerator) (calls : List (Call × UInt64)) :
    (run hash g calls).map ContractivityReceipt.hash = (preimages g calls).map hash := by
  induction calls generalizing g with
  | nil => rfl
  | cons entry calls ih =>
      obtain ⟨digest, -, next⟩ := generate_spec hash g entry.1 entry.2
      rw [run, preimages, List.map_cons, List.map_cons, digest, next, ih]

@[simp] theorem run_length (hash : Bytes → Bytes) (g : ReceiptGenerator)
    (calls : List (Call × UInt64)) : (run hash g calls).length = calls.length := by
  induction calls generalizing g with
  | nil => rfl
  | cons entry calls ih => rw [run, List.length_cons, ih, List.length_cons]

@[simp] theorem preimages_length (g : ReceiptGenerator) (calls : List (Call × UInt64)) :
    (preimages g calls).length = calls.length := by
  induction calls generalizing g with
  | nil => rfl
  | cons entry calls ih => rw [preimages, List.length_cons, ih, List.length_cons]

theorem run_root_eq_hash (hash : Bytes → Bytes) (g : ReceiptGenerator)
    (calls : List (Call × UInt64)) {receipt : ContractivityReceipt}
    (member : receipt ∈ run hash g calls) : receipt.merkleRoot = receipt.hash := by
  induction calls generalizing g with
  | nil => simp [run] at member
  | cons entry calls ih =>
      rcases List.mem_cons.mp member with rfl | later
      · obtain ⟨digest, root, -⟩ := generate_spec hash g entry.1 entry.2
        exact root.trans digest.symm
      · exact ih _ later

theorem run_roots (hash : Bytes → Bytes) (g : ReceiptGenerator) (calls : List (Call × UInt64)) :
    (run hash g calls).map ContractivityReceipt.merkleRoot = (preimages g calls).map hash := by
  rw [← run_hashes]
  apply List.map_congr_left
  intro receipt member
  exact run_root_eq_hash hash g calls member

/-! ## Texts of operations and texts of links -/

def Call.letter : Call → UInt8
  | .operatorAtom _ => charByte 'p'
  | .binaryOp _ _ _ _ => charByte 'i'
  | .stratumBoundary _ => charByte 't'
  | .successor _ => charByte 'u'

theorem operatorName_second (call : Call) (more : Bytes) :
    (call.operatorName ++ more)[1]? = some call.letter := by
  cases call <;> rfl

theorem letter_mem (call : Call) : call.letter ∈ str "pitu" := by
  cases call <;> simp only [Call.letter] <;> decide

theorem preimages_second {g : ReceiptGenerator} {calls : List (Call × UInt64)} {text : Bytes}
    (member : text ∈ preimages g calls) : ∃ b ∈ str "pitu", text[1]? = some b := by
  induction calls generalizing g with
  | nil => simp [preimages] at member
  | cons entry calls ih =>
      rcases List.mem_cons.mp member with rfl | later
      · refine ⟨entry.1.letter, letter_mem entry.1, ?_⟩
        rw [preimage, List.append_assoc, List.append_assoc, List.append_assoc, List.append_assoc]
        exact operatorName_second entry.1 _
      · exact ih later

theorem computeMerkleRoot_run (g : ReceiptGenerator) (calls : List (Call × UInt64)) {k : Nat}
    (positive : 0 < k) (within : k ≤ calls.length) :
    ∃ text, computeMerkleRoot sha256Hex ((run sha256Hex g calls).take k) = sha256Hex text := by
  rw [computeMerkleRoot_eq]
  apply chainRoot_of (P := fun root => ∃ text, root = sha256Hex text)
  · have size : (((run sha256Hex g calls).take k).map ContractivityReceipt.hash).length = k := by
      simpa using within
    exact List.ne_nil_of_length_pos (by rwa [size])
  · intro root member
    rw [List.map_take, run_hashes] at member
    obtain ⟨text, -, rfl⟩ := List.mem_map.mp (List.mem_of_mem_take member)
    exact ⟨text, rfl⟩
  · intro root next
    exact ⟨_, rfl⟩

theorem linkText_second (g : ReceiptGenerator) (calls : List (Call × UInt64)) {k : Nat}
    (positive : 0 < k) (within : k < (run sha256Hex g calls).length) :
    ∃ d < 16, (linkText sha256Hex (run sha256Hex g calls) k within)[1]? =
      some (charByte d.digitChar) := by
  obtain ⟨text, root⟩ := computeMerkleRoot_run g calls positive (by simpa using within.le)
  have inside : 1 < (sha256Hex text).length := by simp
  obtain ⟨d, small, digit⟩ := mem_sha256Hex (List.getElem_mem inside)
  refine ⟨d, small, ?_⟩
  rw [linkText, root, List.append_assoc, List.getElem?_append_left inside,
    List.getElem?_eq_getElem inside, digit]

theorem preimages_linkText (g : ReceiptGenerator) (calls : List (Call × UInt64)) {k : Nat}
    (positive : 0 < k) (within : k < (run sha256Hex g calls).length) {text : Bytes}
    (member : text ∈ preimages g calls) :
    processedBlocks text ≠
      processedBlocks (linkText sha256Hex (run sha256Hex g calls) k within) := by
  intro same
  obtain ⟨b, letter, name⟩ := preimages_second member
  obtain ⟨d, small, root⟩ := linkText_second g calls positive within
  obtain ⟨digest, root_eq⟩ := computeMerkleRoot_run g calls positive (by simpa using within.le)
  have long : 64 ≤ (linkText sha256Hex (run sha256Hex g calls) k within).length := by
    rw [linkText, root_eq, List.length_append, List.length_append, sha256Hex_length]
    omega
  have byte := getElem_of_processedBlocks_eq same (List.getElem?_eq_some_iff.mp name).1
    (show 1 < 64 * (_ / 64) by omega)
  rw [name, root, Option.some.injEq] at byte
  have disjoint : ∀ b ∈ str "pitu", ∀ d < 16, b ≠ charByte d.digitChar := by
    decide +kernel
  exact disjoint b letter d small byte

/-! ## The roots of a run -/

def Collision (text₁ text₂ : Bytes) : Prop :=
  processedBlocks text₁ ≠ processedBlocks text₂ ∧ sha256Hex text₁ = sha256Hex text₂

def Chained (hash : Bytes → Bytes) (chain : List ContractivityReceipt) : Prop :=
  ∀ k, ∀ within : k < chain.length,
    chain[k].merkleRoot = computeMerkleRoot hash (chain.take (k+1))

theorem chained_iff_linked (g : ReceiptGenerator) (calls : List (Call × UInt64)) :
    Chained sha256Hex (run sha256Hex g calls) ↔ Linked sha256Hex (run sha256Hex g calls) := by
  refine ⟨fun chained i _ within => chained i within, fun linked k within => ?_⟩
  rcases Nat.eq_zero_or_pos k with rfl | positive
  · rw [List.take_succ_eq_append_getElem within]
    exact run_root_eq_hash _ g calls (List.getElem_mem within)
  · exact linked k positive within

theorem root_eq_iff_collision (g : ReceiptGenerator) (calls : List (Call × UInt64)) {k : Nat}
    (positive : 0 < k) (within : k < (run sha256Hex g calls).length) :
    (run sha256Hex g calls)[k].merkleRoot =
        computeMerkleRoot sha256Hex ((run sha256Hex g calls).take (k+1)) ↔
      Collision ((preimages g calls).getD k [])
        (linkText sha256Hex (run sha256Hex g calls) k within) := by
  have there : k < (preimages g calls).length := by simpa using within
  have root : (run sha256Hex g calls)[k].merkleRoot = sha256Hex ((preimages g calls).getD k []) := by
    rw [List.getD_eq_getElem _ _ there, ← List.getElem_map ContractivityReceipt.merkleRoot,
      ← List.getElem_map sha256Hex]
    · simp only [run_roots]
    · simpa using within
    · simpa using within
  rw [root, computeMerkleRoot_take_succ _ positive within]
  constructor
  · intro same
    refine ⟨?_, same⟩
    rw [List.getD_eq_getElem _ _ there]
    exact preimages_linkText g calls positive within (List.getElem_mem there)
  · exact And.right

/-- The receipts of a run form a chain when there is at most one. In a longer run they do exactly when
the two texts behind every later receipt collide. -/
theorem run_chained_iff (g : ReceiptGenerator) (calls : List (Call × UInt64)) :
    (calls.length ≤ 1 → Chained sha256Hex (run sha256Hex g calls)) ∧
      (1 < calls.length → (Chained sha256Hex (run sha256Hex g calls) ↔
        ∀ k, 0 < k → ∀ within : k < (run sha256Hex g calls).length,
          Collision ((preimages g calls).getD k [])
            (linkText sha256Hex (run sha256Hex g calls) k within))) := by
  rw [chained_iff_linked]
  constructor
  · intro short k positive within
    rw [run_length] at within
    omega
  · intro _
    exact forall₃_congr fun k positive within => root_eq_iff_collision g calls positive within

theorem run_chained_iff_successors :
    let once : List (Call × UInt64) := [(.successor 6, 5)]
    Chained sha256Hex (run sha256Hex new once) ∧
      (Chained sha256Hex (run sha256Hex new (once ++ once)) ↔
        ∀ k, 0 < k → ∀ within : k < (run sha256Hex new (once ++ once)).length,
          Collision ((preimages new (once ++ once)).getD k [])
            (linkText sha256Hex (run sha256Hex new (once ++ once)) k within)) :=
  ⟨(run_chained_iff new _).1 (by decide), (run_chained_iff new _).2 (by decide)⟩

def digest19 : Bytes := str "0586189a83d26bbeb13a537c9d8cdccdec4839aeef9f45193d4d41dc94c34b03"

theorem sha256Hex_digest19 {text : Bytes} (size : text.length = 19) :
    sha256Hex text = digest19 := by
  have same : sha256Hex text = sha256Hex (List.replicate 19 0) :=
    sha256Hex_eq_of_short (by rw [size, List.length_replicate]) (by omega)
  rw [same, sha256Hex_blocks]
  decide +kernel

def twoAtoms : List ContractivityReceipt :=
  [⟨2, digest19, 0, str "operator_atom", digest19⟩, ⟨3, digest19, 0, str "operator_atom", digest19⟩]

theorem run_two_atoms :
    run sha256Hex new [(.operatorAtom 2, 0), (.operatorAtom 3, 0)] = twoAtoms := by
  have general (hash : Bytes → Bytes) :
      let first := hash (str "operator_atom:2:0:0")
      let second := hash (str "operator_atom:3:0:1")
      run hash new [(.operatorAtom 2, 0), (.operatorAtom 3, 0)] =
        [⟨2, first, 0, str "operator_atom", first⟩, ⟨3, second, 0, str "operator_atom", second⟩] :=
    rfl
  rw [general, sha256Hex_digest19 (by decide), sha256Hex_digest19 (by decide), twoAtoms]

theorem run_two_atoms_not_chained :
    ¬ Chained sha256Hex (run sha256Hex new [(.operatorAtom 2, 0), (.operatorAtom 3, 0)]) := by
  rw [run_two_atoms]
  intro chained
  have link : (sha256Hex (linkText sha256Hex twoAtoms 1 (by decide))).head? = some 100 := by
    rw [sha256Hex_blocks]
    decide +kernel
  have root := chained 1 (by decide)
  rw [computeMerkleRoot_take_succ _ (by decide) (by decide)] at root
  rw [← root] at link
  exact absurd link (by decide)

end SovereignPirtm.Contractivity.ReceiptGenerator
