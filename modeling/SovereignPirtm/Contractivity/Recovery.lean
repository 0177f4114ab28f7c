import SovereignPirtm.Contractivity.Serialization

/-!
# What a receipt and its text stand for

The calls that a generated receipt verifies, and that its text belongs to it alone, also where the name
of an operation makes the text something else than JSON.
-/

namespace SovereignPirtm.Contractivity
open Library

namespace ContractivityReceipt

def verify (r : ContractivityReceipt) (expectedPrime : UInt64) (expectedOp : Bytes) : Bool :=
  r.primeIndex == expectedPrime && r.operatorName == expectedOp && r.hash.length == 64

/-! ## Texts -/

theorem comma_not_mem_decimal (n : ℕ) : charByte ',' ∉ decimal n := by
  intro member
  exact absurd (mem_decimal member).1 (by decide)

theorem decimal_comma_injective {x y : UInt64} {rest rest' : Bytes}
    (same : decimal x.toNat ++ charByte ',' :: rest = decimal y.toNat ++ charByte ',' :: rest') :
    x = y ∧ rest = rest' := by
  obtain ⟨number, later⟩ := separator_append_injective (comma_not_mem_decimal _)
    (comma_not_mem_decimal _) same
  exact ⟨UInt64.toNat_inj.mp (decimal_injective number), later⟩

theorem toJson_parts (r : ContractivityReceipt) : r.toJson =
    str "\x7b\"prime_index\":" ++ (decimal r.primeIndex.toNat ++ charByte ',' ::
      (str "\"hash\":\"" ++ (r.hash ++ (str "\",\"timestamp_ns\":" ++
        (decimal r.timestampNs.toNat ++ charByte ',' :: (str "\"operator\":\"" ++ (r.operatorName ++
          (str "\",\"merkle_root\":\"" ++ (r.merkleRoot ++ str "\"\x7d"))))))))) := by
  have hash : str ",\"hash\":\"" = charByte ',' :: str "\"hash\":\"" := by decide
  have time : str "\",\"timestamp_ns\":" = str "\"" ++ str ",\"timestamp_ns\":" := by decide
  have operator : str ",\"operator\":\"" = charByte ',' :: str "\"operator\":\"" := by decide
  have root : str "\",\"merkle_root\":\"" = str "\"" ++ str ",\"merkle_root\":\"" := by decide
  simp [toJson, hash, time, operator, root]

/-- The digests have a known length, so the name of the operation is what is left between them. -/
theorem toJson_injective {r r' : ContractivityReceipt} (hash : r.hash.length = r'.hash.length)
    (root : r.merkleRoot.length = r'.merkleRoot.length) (same : r.toJson = r'.toJson) : r = r' := by
  rw [toJson_parts, toJson_parts] at same
  obtain ⟨prime, same⟩ := decimal_comma_injective (List.append_cancel_left same)
  obtain ⟨digest, same⟩ := List.append_inj (List.append_cancel_left same) hash
  obtain ⟨time, same⟩ := decimal_comma_injective (List.append_cancel_left same)
  obtain ⟨operator, same⟩ := List.append_inj' (List.append_cancel_left same) (by simp [root])
  obtain ⟨merkle, -⟩ := List.append_inj (List.append_cancel_left same) root
  cases r
  cases r'
  congr

end ContractivityReceipt

/-! ## Runs -/

namespace ReceiptGenerator

def Call.primeIndex : Call → UInt64
  | .operatorAtom primeIndex => primeIndex
  | .binaryOp _ _ _ result => result
  | .stratumBoundary innerPrime => innerPrime
  | .successor innerPrime => innerPrime + 1

theorem run_verify (g : ReceiptGenerator) (calls : List (Call × UInt64)) :
    List.Forall₂ (fun receipt entry => ∀ prime op, receipt.verify prime op = true ↔
      entry.1.primeIndex = prime ∧ entry.1.operatorName = op) (run sha256Hex g calls) calls := by
  induction calls generalizing g with
  | nil => exact .nil
  | cons entry calls ih =>
      obtain ⟨call, now⟩ := entry
      refine .cons (fun prime op => ?_) (ih _)
      cases call <;>
        simp [ContractivityReceipt.verify, generateOperatorAtom, generateBinaryOp,
          generateStratumBoundary, generateSuccessor, issue, Call.primeIndex, Call.operatorName]

theorem run_sized (g : ReceiptGenerator) (calls : List (Call × UInt64))
    {receipt : ContractivityReceipt} (member : receipt ∈ run sha256Hex g calls) :
    receipt.hash.length = 64 ∧ receipt.merkleRoot.length = 64 := by
  have digest : receipt.hash ∈ (run sha256Hex g calls).map ContractivityReceipt.hash :=
    List.mem_map_of_mem member
  rw [run_hashes] at digest
  obtain ⟨text, -, digest⟩ := List.mem_map.mp digest
  rw [run_root_eq_hash sha256Hex g calls member, ← digest]
  exact ⟨sha256Hex_length text, sha256Hex_length text⟩

theorem run_toJson_injective (g g' : ReceiptGenerator) (calls calls' : List (Call × UInt64)) :
    ∀ receipt ∈ run sha256Hex g calls, ∀ receipt' ∈ run sha256Hex g' calls',
      receipt.toJson = receipt'.toJson → receipt = receipt' := by
  intro receipt member receipt' member' same
  obtain ⟨hash, root⟩ := run_sized g calls member
  obtain ⟨hash', root'⟩ := run_sized g' calls' member'
  exact ContractivityReceipt.toJson_injective (hash.trans hash'.symm) (root.trans root'.symm) same

theorem run_toJson_injective_quote : ∃ receipt ∈ run sha256Hex new [(.binaryOp (str "\"") 2 3 6, 0)],
    ∀ receipt' ∈ run sha256Hex new [(.operatorAtom 6, 0)], receipt.toJson ≠ receipt'.toJson := by
  refine ⟨_, List.mem_singleton_self _, fun receipt' member same => ?_⟩
  have equal := run_toJson_injective new new [(.binaryOp (str "\"") 2 3 6, 0)] [(.operatorAtom 6, 0)] _
    (List.mem_singleton_self _) receipt' member same
  have operator := congrArg ContractivityReceipt.operatorName equal
  rw [List.mem_singleton.mp member] at operator
  exact absurd operator (by decide)

/-! ## Hashes -/

/-- The digest of a short text tells its length and nothing else. -/
def shortDigests : Finset Bytes :=
  (Finset.range 56).image fun size => sha256Hex (List.replicate size 0)

theorem sha256Hex_mem_shortDigests {text : Bytes} (short : text.length < 56) :
    sha256Hex text ∈ shortDigests := by
  refine Finset.mem_image.mpr ⟨text.length, Finset.mem_range.mpr short, ?_⟩
  exact sha256Hex_eq_of_short List.length_replicate (by rwa [List.length_replicate])

/-- The text that a call hashes; `id` for the hash function shows it. -/
def text (g : ReceiptGenerator) (call : Call) (now : UInt64) : Bytes := (g.generate id call now).1.hash

theorem generate_hash (g : ReceiptGenerator) (call : Call) (now : UInt64) :
    (g.generate sha256Hex call now).1.hash = sha256Hex (g.text call now) := by
  rw [text, (generate_spec sha256Hex g call now).1, (generate_spec id g call now).1, id]

/-- The hash of a short text depends on its length alone: of however many receipts for short texts, by
however many generators, no more than 56 have different hashes. -/
theorem short_hashes_few :
    (∀ (g g' : ReceiptGenerator) (call call' : Call) (now now' : UInt64),
      (g.text call now).length = (g'.text call' now').length → (g.text call now).length < 56 →
        (g.generate sha256Hex call now).1.hash = (g'.generate sha256Hex call' now').1.hash) ∧
    ∀ calls : List (ReceiptGenerator × Call × UInt64),
      (((calls.filter fun (g, call, now) => (g.text call now).length < 56).map
        fun (g, call, now) => (g.generate sha256Hex call now).1.hash).toFinset).card ≤ 56 := by
  constructor
  · intro g g' call call' now now' length short
    rw [generate_hash, generate_hash]
    exact sha256Hex_eq_of_short length short
  · intro calls
    have few : shortDigests.card ≤ 56 := Finset.card_image_le.trans (Finset.card_range 56).le
    refine (Finset.card_le_card fun digest member => ?_).trans few
    obtain ⟨⟨g, call, now⟩, kept, rfl⟩ := List.mem_map.mp (List.mem_toFinset.mp member)
    have short : (g.text call now).length < 56 := of_decide_eq_true (List.mem_filter.mp kept).2
    change (g.generate sha256Hex call now).1.hash ∈ shortDigests
    rw [generate_hash]
    exact sha256Hex_mem_shortDigests short

/-- Different primes, one hash. -/
theorem short_hashes_few_atoms :
    (new.generate sha256Hex (.operatorAtom 2) 0).1.hash =
        (new.generate sha256Hex (.operatorAtom 3) 7).1.hash ∧
      (([(new, .operatorAtom 2, 0), (new, .operatorAtom 3, 7)].filter
        fun (g, call, now) => (text g call now).length < 56).map
        fun (g, call, now) => (generate sha256Hex g call now).1.hash).toFinset.card ≤ 56 :=
  ⟨short_hashes_few.1 new new _ _ 0 7 (by decide) (by decide), short_hashes_few.2 _⟩

end ReceiptGenerator
end SovereignPirtm.Contractivity
