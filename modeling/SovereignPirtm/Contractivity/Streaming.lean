import SovereignPirtm.Library.Blocks
import SovereignPirtm.Contractivity.Sha256

/-!
# What the object holds while it is fed

`Buffered s m`: the object has been given the bytes `m`, has processed their complete blocks and
keeps the rest in its buffer. `update` adds its input to `m`.
-/

namespace SovereignPirtm.Contractivity.SHA256
open Library

structure Buffered (s : SHA256) (m : Bytes) : Prop where
  h : s.h = (blocks 64 m).foldl compressBlock initialH
  processed : s.processed = blocks 64 m
  size : s.buffer.length = 64
  bufferLen : s.bufferLen = m.length % 64
  buffer : s.buffer.take s.bufferLen = rest 64 m

/-! ## Copying -/

theorem memcpy_length {dst src : Bytes} {offset : Nat} (room : offset + src.length ≤ dst.length) :
    (memcpy dst offset src).length = dst.length := by
  simp only [memcpy, List.length_append, List.length_take, List.length_drop]
  omega

theorem memcpy_take (dst src : Bytes) {offset : Nat} (within : offset ≤ dst.length) :
    (memcpy dst offset src).take (offset + src.length) = dst.take offset ++ src := by
  rw [memcpy, List.append_assoc, ← List.append_assoc]
  apply List.take_left'
  simp [Nat.min_eq_left within]

/-! ## Steps of `update` -/

theorem new_buffered (buffer : Bytes) (size : buffer.length = 64) : Buffered (new buffer) [] := by
  constructor <;> simp [new, reset, size]

theorem copy_short {s : SHA256} {m : Bytes} (bytes : Bytes) (held : Buffered s m)
    (short : s.bufferLen + bytes.length < 64) :
    Buffered { s with
      buffer := memcpy s.buffer s.bufferLen bytes, bufferLen := s.bufferLen + bytes.length }
      (m ++ bytes) := by
  have waiting : (rest 64 m).length = s.bufferLen := by rw [rest_length, held.bufferLen]
  obtain ⟨same_blocks, longer_rest⟩ := blocks_append_short (n := 64) m bytes
    (by decide) (by omega)
  constructor
  · rw [same_blocks, ← held.h]
  · rw [same_blocks, ← held.processed]
  · rw [memcpy_length (by rw [held.size]; omega), held.size]
  · have := held.bufferLen
    simp only [List.length_append]
    omega
  · rw [longer_rest, ← held.buffer]
    exact memcpy_take _ _ (by rw [held.size]; omega)

theorem copy_full {s s' : SHA256} {m : Bytes} (bytes : Bytes) (held : Buffered s m)
    (full : s.bufferLen + bytes.length = 64) (h : s'.h = s.h)
    (processed : s'.processed = s.processed)
    (buffer : s'.buffer = memcpy s.buffer s.bufferLen bytes) :
    Buffered { s'.processBlock s'.buffer with bufferLen := 0 } (m ++ bytes) := by
  have waiting : (rest 64 m).length = s.bufferLen := by rw [rest_length, held.bufferLen]
  obtain ⟨one_block, no_rest⟩ := blocks_append_full (n := 64) m bytes
    (by decide) (by omega)
  have size : (memcpy s.buffer s.bufferLen bytes).length = 64 := by
    rw [memcpy_length (by rw [held.size]; omega), held.size]
  have contents : memcpy s.buffer s.bufferLen bytes = rest 64 m ++ bytes := by
    rw [← held.buffer, ← memcpy_take _ _ (by rw [held.size]; omega), full,
      List.take_of_length_le size.le]
  constructor
  · rw [one_block, List.foldl_append, ← held.h, ← contents, ← buffer, ← h]
    rfl
  · rw [one_block, ← held.processed, ← contents, ← buffer, ← processed]
    rfl
  · exact (congrArg List.length buffer).trans size
  · rw [← rest_length, no_rest]
    rfl
  · rw [no_rest, List.take_zero]

theorem processBlock_buffered {s : SHA256} {m block : Bytes} (held : Buffered s m)
    (empty : s.bufferLen = 0) (whole : block.length = 64) :
    Buffered (s.processBlock block) (m ++ block) := by
  have none : rest 64 m = [] := by
    rw [← List.length_eq_zero_iff, rest_length, ← held.bufferLen, empty]
  obtain ⟨one_block, no_rest⟩ := blocks_append_full (n := 64) m block
    (by decide) (by rw [none, whole]; rfl)
  rw [none, List.nil_append] at one_block
  constructor
  · rw [one_block, List.foldl_append, ← held.h]
    rfl
  · rw [one_block, ← held.processed]
    rfl
  · exact held.size
  · rw [← rest_length, no_rest]
    exact empty
  · rw [no_rest]
    exact (congrArg (List.take · s.buffer) empty).trans List.take_zero

theorem processBlocks_spec (m data : Bytes) (s : SHA256) (offset : Nat)
    (within : offset ≤ data.length) (empty : s.bufferLen = 0)
    (held : Buffered s (m ++ data.take offset)) :
    ∃ s' stop, s.processBlocks data offset = (s', stop) ∧ s'.bufferLen = 0 ∧
      s'.totalLen = s.totalLen ∧ stop ≤ data.length ∧ data.length < stop + 64 ∧
      Buffered s' (m ++ data.take stop) := by
  induction s, offset using processBlocks.induct data with
  | case1 s offset more ih =>
      rw [processBlocks, if_pos more]
      have whole : ((data.drop offset).take 64).length = 64 := by
        rw [List.length_take, List.length_drop]
        omega
      have next := processBlock_buffered held empty whole
      rw [List.append_assoc, ← List.take_add] at next
      exact ih more empty next
  | case2 s offset done =>
      rw [processBlocks, if_neg done]
      exact ⟨s, offset, rfl, empty, rfl, within, by omega, held⟩

theorem fillBuffer_spec (m data : Bytes) (s : SHA256) (held : Buffered s m) :
    ∃ s' offset, s.fillBuffer data = (s', offset) ∧ s'.totalLen = s.totalLen ∧
      offset ≤ data.length ∧ (offset = data.length ∨ s'.bufferLen = 0) ∧
      Buffered s' (m ++ data.take offset) := by
  have lt : s.bufferLen < 64 := by rw [held.bufferLen]; exact Nat.mod_lt _ (by decide)
  by_cases waiting : 0 < s.bufferLen
  · have copied : (data.take (min data.length (64 - s.bufferLen))).length =
        min data.length (64 - s.bufferLen) := by
      rw [List.length_take]
      exact Nat.min_eq_left (Nat.min_le_left _ _)
    rw [fillBuffer, if_pos waiting]
    dsimp only
    split
    · rename_i full
      refine ⟨_, _, rfl, rfl, Nat.min_le_left _ _, .inr rfl, ?_⟩
      exact copy_full _ held (by rw [copied, full]) rfl rfl rfl
    · rename_i short
      refine ⟨_, _, rfl, rfl, Nat.min_le_left _ _, .inl (by omega), ?_⟩
      have next := copy_short (data.take (min data.length (64 - s.bufferLen))) held
        (by rw [copied]; omega)
      rwa [copied] at next
  · refine ⟨s, 0, by simp [fillBuffer, waiting], rfl, Nat.zero_le _, .inr (by omega), ?_⟩
    rwa [List.take_zero, List.append_nil]

theorem update_spec {s : SHA256} {m : Bytes} (data : Bytes) (held : Buffered s m) :
    Buffered (s.update data) (m ++ data) ∧
      (s.update data).totalLen = s.totalLen + UInt64.ofNat data.length := by
  have counted : Buffered { s with totalLen := s.totalLen + UInt64.ofNat data.length } m :=
    ⟨held.h, held.processed, held.size, held.bufferLen, held.buffer⟩
  obtain ⟨s₁, offset, fill, total₁, within, progress, held₁⟩ := fillBuffer_spec m data _ counted
  rcases progress with rfl | empty
  · -- the input went into the buffer entirely
    have loop : s₁.processBlocks data data.length = (s₁, data.length) := by
      rw [processBlocks, if_neg (by omega)]
    rw [List.take_length] at held₁
    simp only [update, fill, loop, lt_irrefl, if_false]
    exact ⟨held₁, total₁⟩
  · obtain ⟨s₂, stop, loop, empty₂, total₂, stop_le, near, held₂⟩ :=
      processBlocks_spec m data s₁ offset within empty held₁
    simp only [update, fill, loop]
    split
    · rename_i left
      have tail := copy_short (data.drop stop) held₂
        (by rw [empty₂, List.length_drop]; omega)
      rw [List.append_assoc, List.take_append_drop, empty₂, List.length_drop, Nat.zero_add] at tail
      exact ⟨tail, total₂.trans total₁⟩
    · rename_i done
      have all : data.take stop = data := List.take_of_length_le (by omega)
      rw [all] at held₂
      exact ⟨held₂, total₂.trans total₁⟩

theorem update_buffered {s : SHA256} {m : Bytes} (data : Bytes) (held : Buffered s m) :
    Buffered (s.update data) (m ++ data) := (update_spec data held).1

end SovereignPirtm.Contractivity.SHA256
