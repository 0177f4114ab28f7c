import SovereignPirtm.Contractivity.Digest

/-!
# When the digest is that of the standard

The last block of `finalize` is the standard's last block for the messages that end in their own bit
length, and for no others.
-/

namespace SovereignPirtm.Contractivity
open Library SHA256

def EndsInOwnLength (m : Bytes) : Prop :=
  m.length % 64 = 8 ∧ rest 64 m = bigEndian 8 (8 * m.length)

instance (m : Bytes) : Decidable (EndsInOwnLength m) := inferInstanceAs (Decidable (_ ∧ _))

/-- The standard's last block and that of `finalize` are two different blocks that the compression
function takes from one chaining value to the same next one. -/
def LastBlocksCollide (m : Bytes) : Prop :=
  let H := (blocks 64 (padded m)).foldl Fips180.compress Fips180.initial
  let standard := rest 64 (padded m) ++ bigEndian 8 (8 * m.length)
  lastBlock m ≠ standard ∧ Fips180.compress H (lastBlock m) = Fips180.compress H standard

theorem bitLength_toNat {m : Bytes} (short : m.length < 2 ^ 61) :
    (bitLength m).toNat = 8 * m.length := by
  rw [bitLength, UInt64.toNat_mul, UInt64.toNat_ofNat_of_lt' (by simp [UInt64.size]; omega)]
  change m.length * 8 % 2 ^ 64 = _
  omega

theorem rest_padded_eq_iff {m L : Bytes} (size : L.length = 8) :
    L ++ 0x80 :: List.replicate 47 0 = rest 64 (padded m) ↔ m.length % 64 = 8 ∧ rest 64 m = L := by
  constructor
  · intro same
    by_cases short : m.length % 64 < 56
    · rw [(padded_short short).2] at same
      have tail := marker_padding_injective (by decide) same
      exact ⟨by rw [← rest_length, ← tail, size], tail.symm⟩
    · -- zeros have no marker among them
      rw [(padded_long (not_lt.mp short)).2] at same
      have marker : (0x80 : UInt8) ∈ List.replicate 56 0 := by
        rw [← same]
        simp
      exact absurd (List.eq_of_mem_replicate marker) (by decide)
  · rintro ⟨eight, rfl⟩
    rw [(padded_short (by omega)).2, eight]

theorem lastBlock_eq_iff {m : Bytes} (short : m.length < 2 ^ 61) :
    lastBlock m = rest 64 (padded m) ++ bigEndian 8 (8 * m.length) ↔ EndsInOwnLength m := by
  rw [lastBlock, bitLength_toNat short, List.append_left_inj,
    rest_padded_eq_iff (bigEndian_length _ _), EndsInOwnLength]

theorem hash_standard (m : Bytes) :
    Fips180.hash m = Fips180.compress
      ((blocks 64 (padded m)).foldl Fips180.compress Fips180.initial)
      (rest 64 (padded m) ++ bigEndian 8 (8 * m.length)) := by
  rw [Fips180.hash, standard_blocks, List.foldl_append]
  rfl

theorem sha256Hex_lastBlock (m : Bytes) :
    sha256Hex m = Fips180.hex (Fips180.compress
      ((blocks 64 (padded m)).foldl Fips180.compress Fips180.initial) (lastBlock m)) := by
  rw [sha256Hex_eq, processedBlocks_eq, List.foldl_append]
  rfl

/-- The digest is the standard's for the messages that end in their own length. For any other message
it is so exactly when the compression function collides on the two last blocks. -/
theorem sha256Hex_standard_iff (m : Bytes) (short : m.length < 2 ^ 61) :
    (EndsInOwnLength m → sha256Hex m = Fips180.sha256 m) ∧
      (¬ EndsInOwnLength m → (sha256Hex m = Fips180.sha256 m ↔ LastBlocksCollide m)) := by
  rw [sha256Hex_lastBlock, Fips180.sha256, hash_standard]
  constructor
  · intro own
    rw [(lastBlock_eq_iff short).mpr own]
  · intro other
    rw [← lastBlock_eq_iff short] at other
    constructor
    · intro same
      exact ⟨other, Fips180.hex_injective same⟩
    · rintro ⟨-, collision⟩
      rw [collision]

theorem sha256Hex_standard_eight :
    sha256Hex [0, 0, 0, 0, 0, 0, 0, 64] = Fips180.sha256 [0, 0, 0, 0, 0, 0, 0, 64] ∧
      (sha256Hex [] = Fips180.sha256 [] ↔ LastBlocksCollide []) :=
  ⟨(sha256Hex_standard_iff _ (by decide)).1 (by decide),
    (sha256Hex_standard_iff _ (by decide)).2 (by decide)⟩

theorem sha256Hex_empty_not_standard : sha256Hex [] ≠ Fips180.sha256 [] := by
  intro same
  rw [sha256Hex_lastBlock, Fips180.sha256, hash_standard] at same
  have digest := Fips180.hex_injective same
  rw [← compressBlock_eq, ← compressBlock_eq, ← initialH_eq] at digest
  revert digest
  decide +kernel

end SovereignPirtm.Contractivity
