import SovereignPirtm.Contractivity.Conformance

/-!
# Which bytes reach the compression function

Two messages are hashed from the same blocks exactly when they have one length and agree in every
byte that is processed: all of them when the tail leaves no room for the length, otherwise only the
complete blocks.
-/

namespace SovereignPirtm.Contractivity
open Library SHA256

theorem eq_of_blocks_rest {m₁ m₂ : Bytes} (complete : blocks 64 m₁ = blocks 64 m₂)
    (tail : rest 64 m₁ = rest 64 m₂) : m₁ = m₂ := by
  have front := congrArg List.flatten complete
  rw [flatten_blocks (by decide), flatten_blocks (by decide)] at front
  rw [← take_append_rest (n := 64) m₁, ← take_append_rest (n := 64) m₂, front, tail]

theorem lastBlock_eq_lastBlock {m₁ m₂ : Bytes} (short₁ : m₁.length < 2 ^ 61)
    (short₂ : m₂.length < 2 ^ 61) : lastBlock m₁ = lastBlock m₂ ↔ m₁.length = m₂.length := by
  rw [lastBlock, lastBlock, bitLength_toNat short₁, bitLength_toNat short₂]
  constructor
  · intro same
    have lengths := bigEndian_injective (k := 8) (by omega) (by omega)
      (List.append_inj' same (by simp)).2
    omega
  · intro same
    rw [same]

theorem processedBlocks_eq_iff {m₁ m₂ : Bytes} (short₁ : m₁.length < 2 ^ 61)
    (short₂ : m₂.length < 2 ^ 61) :
    processedBlocks m₁ = processedBlocks m₂ ↔
      m₁.length = m₂.length ∧ blocks 64 m₁ = blocks 64 m₂ ∧ (m₁.length % 64 < 56 ∨ m₁ = m₂) := by
  rw [processedBlocks_eq, processedBlocks_eq]
  constructor
  · intro same
    obtain ⟨front, last⟩ := List.append_inj' same rfl
    have length := (lastBlock_eq_lastBlock short₁ short₂).mp (List.singleton_inj.mp last)
    by_cases room : m₁.length % 64 < 56
    · rw [(padded_short room).1, (padded_short (length ▸ room)).1] at front
      exact ⟨length, front, .inl room⟩
    · have tail : 56 ≤ m₁.length % 64 := not_lt.mp room
      rw [(padded_long tail).1, (padded_long (length ▸ tail)).1] at front
      obtain ⟨complete, closing⟩ := List.append_inj' front rfl
      have same_rest := marker_padding_injective (by decide) (List.singleton_inj.mp closing)
      exact ⟨length, complete, .inr (eq_of_blocks_rest complete same_rest)⟩
  · rintro ⟨length, complete, room | rfl⟩
    · rw [(padded_short room).1, (padded_short (length ▸ room)).1, complete,
        (lastBlock_eq_lastBlock short₁ short₂).mpr length]
    · rfl

theorem sha256Hex_eq_of_blocks {m₁ m₂ : Bytes} (length : m₁.length = m₂.length)
    (short : m₁.length < 2 ^ 61) (room : m₁.length % 64 < 56)
    (complete : blocks 64 m₁ = blocks 64 m₂) : sha256Hex m₁ = sha256Hex m₂ := by
  have same : processedBlocks m₁ = processedBlocks m₂ :=
    (processedBlocks_eq_iff short (length ▸ short)).mpr ⟨length, complete, .inl room⟩
  rw [sha256Hex_eq, sha256Hex_eq, same]

theorem sha256Hex_eq_of_short {m₁ m₂ : Bytes} (length : m₁.length = m₂.length)
    (short : m₁.length < 56) : sha256Hex m₁ = sha256Hex m₂ := by
  have no_blocks₁ : blocks 64 m₁ = [] := blocks_of_lt (by omega)
  have no_blocks₂ : blocks 64 m₂ = [] := blocks_of_lt (by omega)
  exact sha256Hex_eq_of_blocks length (by omega) (by omega) (no_blocks₁.trans no_blocks₂.symm)

theorem getElem_of_processedBlocks_eq {m₁ m₂ : Bytes}
    (same : processedBlocks m₁ = processedBlocks m₂) {i : Nat} (in₁ : i < m₁.length)
    (in₂ : i < 64 * (m₂.length / 64)) : m₁[i]? = m₂[i]? := by
  rw [processedBlocks_eq, processedBlocks_eq] at same
  have front := congrArg List.flatten (List.append_inj' same rfl).1
  rw [flatten_blocks (by decide), flatten_blocks (by decide)] at front
  have within₂ : i < 64 * ((padded m₂).length / 64) := by
    rw [padded_length]
    omega
  have within₁ : i < 64 * ((padded m₁).length / 64) := by
    have size := congrArg List.length front
    rw [List.length_take, List.length_take] at size
    omega
  have byte : ((padded m₁).take (64 * ((padded m₁).length / 64)))[i]? =
      ((padded m₂).take (64 * ((padded m₂).length / 64)))[i]? := by rw [front]
  rwa [List.getElem?_take_of_lt within₁, List.getElem?_take_of_lt within₂, padded, padded,
    List.getElem?_append_left in₁, List.getElem?_append_left (by omega)] at byte

/-- Different messages are hashed from different blocks unless they have one length and differ only
in a tail of less than 56 bytes. -/
theorem processedBlocks_ne_iff (m₁ m₂ : Bytes) (short₁ : m₁.length < 2 ^ 61)
    (short₂ : m₂.length < 2 ^ 61) (different : m₁ ≠ m₂) :
    processedBlocks m₁ ≠ processedBlocks m₂ ↔
      m₁.length ≠ m₂.length ∨ blocks 64 m₁ ≠ blocks 64 m₂ ∨ 56 ≤ m₁.length % 64 := by
  rw [Ne, processedBlocks_eq_iff short₁ short₂]
  constructor
  · intro lost
    by_contra same
    push Not at same
    exact lost ⟨same.1, same.2.1, .inl same.2.2⟩
  · rintro cause ⟨length, complete, room | equal⟩
    · rcases cause with h | h | h
      · exact h length
      · exact h complete
      · omega
    · exact different equal

theorem processedBlocks_ne_long :
    processedBlocks (List.replicate 64 0) ≠ processedBlocks (List.replicate 64 1) :=
  (processedBlocks_ne_iff _ _ (by decide) (by decide) (by decide)).mpr (.inr (.inl (by decide)))

theorem processedBlocks_single_bytes :
    ([0] : Bytes) ≠ [1] ∧ processedBlocks [0] = processedBlocks [1] :=
  ⟨by decide,
    (processedBlocks_eq_iff (by decide) (by decide)).mpr ⟨rfl, by decide, .inl (by decide)⟩⟩

end SovereignPirtm.Contractivity
