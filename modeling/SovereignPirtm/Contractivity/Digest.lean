import SovereignPirtm.Contractivity.Compression
import SovereignPirtm.Contractivity.Streaming

/-!
# What `finalize` hashes

The blocks that a run of `sha256_hex` processes, next to the blocks that the standard prescribes. The
two lists agree up to the last block: the standard closes with the tail of the message, its padding
and its length, `finalize` closes with a block made of the length alone.
-/

namespace SovereignPirtm.Contractivity
open Library SHA256

/-! ## The padding -/

theorem padBytes_eq (m : Bytes) :
    padBytes (m.length % 64) = 0x80 :: List.replicate (Fips180.zeroCount m.length) 0 := by
  have padLen : (if m.length % 64 < 56 then 56 - m.length % 64 else 120 - m.length % 64) =
      Fips180.zeroCount m.length + 1 := by
    rw [Fips180.zeroCount]
    split <;> omega
  rw [padBytes, padLen, List.replicate_succ, List.set_cons_zero]

def padded (m : Bytes) : Bytes := m ++ padBytes (m.length % 64)

theorem update_padded {s : SHA256} {m : Bytes} (held : Buffered s m) :
    Buffered (s.update (padBytes s.bufferLen)) (padded m) := by
  rw [held.bufferLen]
  exact update_buffered _ held

theorem padded_length (m : Bytes) :
    (padded m).length = m.length + Fips180.zeroCount m.length + 1 := by
  rw [padded, List.length_append, padBytes_eq, List.length_cons, List.length_replicate]
  rfl

theorem rest_padded_length (m : Bytes) : (rest 64 (padded m)).length = 56 := by
  rw [rest_length, padded_length, Fips180.zeroCount]
  omega

theorem padded_short {m : Bytes} (tail : m.length % 64 < 56) :
    blocks 64 (padded m) = blocks 64 m ∧
      rest 64 (padded m) = rest 64 m ++ 0x80 :: List.replicate (55 - m.length % 64) 0 := by
  have zeros : (119 - m.length % 64) % 64 = 55 - m.length % 64 := by omega
  rw [padded, padBytes_eq, Fips180.zeroCount, zeros]
  apply blocks_append_short m _ (by decide)
  rw [rest_length, List.length_cons, List.length_replicate]
  omega

theorem padded_long {m : Bytes} (tail : 56 ≤ m.length % 64) :
    blocks 64 (padded m) =
        blocks 64 m ++ [rest 64 m ++ 0x80 :: List.replicate (63 - m.length % 64) 0] ∧
      rest 64 (padded m) = List.replicate 56 0 := by
  have lt : m.length % 64 < 64 := Nat.mod_lt _ (by decide)
  have zeros : (119 - m.length % 64) % 64 = 63 - m.length % 64 + 56 := by omega
  have full : (rest 64 m).length +
      (0x80 :: List.replicate (63 - m.length % 64) (0 : UInt8)).length = 64 := by
    rw [rest_length, List.length_cons, List.length_replicate]
    omega
  have zeros_short : (List.replicate 56 (0 : UInt8)).length < 64 := by simp
  obtain ⟨one_block, no_rest⟩ := blocks_append_full m _ (by decide) full
  rw [padded, padBytes_eq, Fips180.zeroCount, zeros, List.replicate_add, ← List.cons_append,
    ← List.append_assoc]
  constructor
  · rw [blocks_append (by decide), one_block, no_rest, List.nil_append, blocks_of_lt zeros_short,
      List.append_nil]
  · rw [rest_append (by decide), no_rest, List.nil_append, rest_of_lt zeros_short]

theorem shifted_byte (x : UInt64) {j : Nat} (h : j < 8) :
    (x >>> UInt64.ofNat (8 * j)).toUInt8 = UInt8.ofNat (x.toNat / 256 ^ j) := by
  have shift : (UInt64.ofNat (8 * j)).toNat = 8 * j :=
    UInt64.toNat_ofNat_of_lt' (by simp [UInt64.size]; omega)
  apply UInt8.toNat_inj.mp
  rw [UInt64.toNat_toUInt8, UInt64.toNat_shiftRight, shift, UInt8.toNat_ofNat',
    Nat.mod_eq_of_lt (show 8 * j < 64 by omega), Nat.shiftRight_eq_div_pow, Nat.pow_mul]

theorem shifted_bytes (x : UInt64) :
    (List.range 8).map (fun i => (x >>> UInt64.ofNat (56 - 8 * i)).toUInt8) =
      bigEndian 8 x.toNat := by
  have each : ∀ i ∈ List.range 8, (x >>> UInt64.ofNat (56 - 8 * i)).toUInt8 =
      UInt8.ofNat (x.toNat / 256 ^ (7 - i)) := by
    intro i member
    have within : i < 8 := List.mem_range.mp member
    rw [← shifted_byte x (show 7 - i < 8 by omega), Nat.mul_sub]
  rw [List.map_congr_left each]
  simp [List.range_succ, bigEndian, Nat.div_div_eq_div_mul]

theorem lenPad_eq (bitLen : UInt64) : lenPad bitLen = bigEndian 8 bitLen.toNat :=
  (show lenPad bitLen = _ from rfl).trans (shifted_bytes bitLen)

theorem foldl_set (front back : Bytes) (f : Nat → UInt8) {k : Nat} (room : k ≤ back.length) :
    (List.range k).foldl (fun b i => b.set (front.length + i) (f i)) (front ++ back) =
      front ++ (List.range k).map f ++ back.drop k := by
  induction k with
  | zero => simp
  | succ k ih =>
      have written : (front ++ (List.range k).map f).length = front.length + k := by simp
      rw [List.range_succ, List.foldl_append, ih (by omega), List.foldl_cons, List.foldl_nil,
        List.set_append_right _ _ (by omega), written, Nat.sub_self,
        List.drop_eq_getElem_cons (by omega), List.set_cons_zero, List.map_append]
      simp

theorem finalBlock_eq (bitLen : UInt64) {head : Bytes} (size : head.length = 8) :
    finalBlock bitLen head = head ++ 0x80 :: List.replicate 47 0 ++ bigEndian 8 bitLen.toNat := by
  have marked : (memcpy (List.replicate 64 0) 0 head).set head.length 0x80 =
      head ++ 0x80 :: List.replicate 47 0 ++ List.replicate 8 0 := by
    rw [memcpy, List.take_zero, List.nil_append, size, List.drop_replicate,
      List.set_append_right _ _ (by omega), size]
    simp [List.replicate_succ]
  have front : (head ++ 0x80 :: List.replicate 47 0).length = 56 := by simp [size]
  have written := foldl_set (head ++ 0x80 :: List.replicate 47 0) (List.replicate 8 0)
    (fun i => (bitLen >>> UInt64.ofNat (56 - 8 * i)).toUInt8) (k := 8) le_rfl
  rw [front, shifted_bytes] at written
  rw [finalBlock, marked, written]
  simp

/-! ## The blocks of a run -/

def bitLength (m : Bytes) : UInt64 := UInt64.ofNat m.length * 8

def lastBlock (m : Bytes) : Bytes :=
  bigEndian 8 (bitLength m).toNat ++ 0x80 :: List.replicate 47 0 ++ bigEndian 8 (bitLength m).toNat

theorem finalize_spec {s : SHA256} {m : Bytes} (held : Buffered s m)
    (total : s.totalLen = UInt64.ofNat m.length) :
    s.finalize.2.processed = blocks 64 (padded m) ++ [lastBlock m] ∧
      s.finalize.2.h = (blocks 64 (padded m) ++ [lastBlock m]).foldl compressBlock initialH ∧
      s.finalize.1 = s.finalize.2.h.toList.flatMap hexWord := by
  have bits : s.totalLen * 8 = bitLength m := by rw [total, bitLength]
  have fed := update_padded held
  have size : (lenPad (bitLength m)).length = 8 := by rw [lenPad_eq, bigEndian_length]
  have head : (memcpy (s.update (padBytes s.bufferLen)).buffer 0 (lenPad (bitLength m))).take 8 =
      lenPad (bitLength m) := by
    have front := memcpy_take (s.update (padBytes s.bufferLen)).buffer (lenPad (bitLength m))
      (Nat.zero_le _)
    rwa [size] at front
  have last : finalBlock (bitLength m) (lenPad (bitLength m)) = lastBlock m := by
    rw [finalBlock_eq _ size, lenPad_eq, lastBlock]
  rw [finalize, bits]
  refine ⟨?_, ?_, rfl⟩
  · simp only [processBlock, head, last, fed.processed]
  · simp only [processBlock, head, last, fed.h, List.foldl_append, List.foldl_cons, List.foldl_nil]

theorem new_fed (buffer m : Bytes) (size : buffer.length = 64) :
    Buffered ((new buffer).update m) m ∧
      ((new buffer).update m).totalLen = UInt64.ofNat m.length := by
  obtain ⟨held, total⟩ := update_spec m (new_buffered buffer size)
  refine ⟨held, total.trans ?_⟩
  exact UInt64.zero_add _

/-- A run does not depend on the bytes that the buffer of the fresh object holds. -/
theorem finalize_new (buffer m : Bytes) (size : buffer.length = 64) :
    (((new buffer).update m).finalize.1, ((new buffer).update m).finalize.2.processed) =
      (sha256Hex m, processedBlocks m) := by
  obtain ⟨held, total⟩ := new_fed buffer m size
  obtain ⟨held₀, total₀⟩ := new_fed (List.replicate 64 0) m (List.length_replicate)
  obtain ⟨blocks₁, h₁, hex₁⟩ := finalize_spec held total
  obtain ⟨blocks₀, h₀, hex₀⟩ := finalize_spec held₀ total₀
  rw [sha256Hex, processedBlocks, hashRun, hex₁, hex₀, h₁, h₀, blocks₁, blocks₀]

theorem processedBlocks_eq (m : Bytes) :
    processedBlocks m = blocks 64 (padded m) ++ [lastBlock m] := by
  obtain ⟨held, total⟩ := new_fed (List.replicate 64 0) m List.length_replicate
  exact (finalize_spec held total).1

theorem hexWord_eq (x : UInt32) : hexWord x = Fips180.hexWord x := by
  rw [hexWord, leftpad_toDigits (by decide) (by simpa using x.toNat_lt), Fips180.hexWord]

theorem sha256Hex_blocks (m : Bytes) :
    sha256Hex m =
      Fips180.hex ((blocks 64 (padded m) ++ [lastBlock m]).foldl compressBlock initialH) := by
  obtain ⟨held, total⟩ := new_fed (List.replicate 64 0) m List.length_replicate
  obtain ⟨-, h, hex⟩ := finalize_spec held total
  rw [sha256Hex, hashRun, hex, h, Fips180.hex, funext hexWord_eq]

theorem sha256Hex_eq (m : Bytes) :
    sha256Hex m = Fips180.hex ((processedBlocks m).foldl Fips180.compress Fips180.initial) := by
  have same : compressBlock = Fips180.compress := funext fun H => funext (compressBlock_eq H)
  rw [sha256Hex_blocks, processedBlocks_eq, same, initialH_eq]

@[simp] theorem sha256Hex_length (m : Bytes) : (sha256Hex m).length = 64 := by
  rw [sha256Hex_eq, Fips180.hex_length]

theorem mem_sha256Hex {m : Bytes} {b : UInt8} (member : b ∈ sha256Hex m) :
    ∃ d < 16, b = charByte d.digitChar := by
  rw [sha256Hex_eq] at member
  exact Fips180.mem_hex member

theorem standard_blocks (m : Bytes) :
    blocks 64 (Fips180.pad m) =
      blocks 64 (padded m) ++ [rest 64 (padded m) ++ bigEndian 8 (8 * m.length)] := by
  have full : (rest 64 (padded m)).length + (bigEndian 8 (8 * m.length)).length = 64 := by
    rw [rest_padded_length, bigEndian_length]
  rw [← (blocks_append_full _ _ (by decide) full).1, Fips180.pad, padded, padBytes_eq]

end SovereignPirtm.Contractivity
