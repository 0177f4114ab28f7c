import SovereignPirtm.Library.Traced
import SovereignPirtm.Contractivity.Digest

/-!
# The memory that the hash touches

`update` and `finalize` with a record of every access to the buffer, to the arrays of `finalize` and
to the input, and of every subtraction of lengths and indices.
-/

namespace SovereignPirtm.Contractivity.SHA256
open Library

/-- The arrays of the code. A chunk is the input of `update`. -/
inductive Region where
  | buffer
  | pad
  | lenPad
  | finalBlock
  | chunk (len : Nat)

def Region.size : Region → Nat
  | .buffer => 64
  | .pad => 64
  | .lenPad => 8
  | .finalBlock => 64
  | .chunk len => len

inductive Access where
  | subtract (x y : Nat)
  | read (region : Region) (offset count : Nat)
  | write (region : Region) (offset count : Nat)

def Access.InRange : Access → Prop
  | .subtract x y => y ≤ x
  | .read region offset count => offset + count ≤ region.size
  | .write region offset count => offset + count ≤ region.size

def subtract (x y : Nat) : Traced Access Nat := ⟨x - y, [.subtract x y]⟩

def read (region : Region) (offset count : Nat) : Traced Access Unit :=
  ⟨(), [.read region offset count]⟩

def write (region : Region) (offset count : Nat) : Traced Access Unit :=
  ⟨(), [.write region offset count]⟩

def copy (dst : Region) (dstOffset : Nat) (src : Region) (srcOffset count : Nat) :
    Traced Access Unit :=
  ⟨(), [.write dst dstOffset count, .read src srcOffset count]⟩

/-! ## The traced code -/

def fillBufferTraced (s : SHA256) (data : Bytes) : Traced Access (SHA256 × Nat) :=
  if 0 < s.bufferLen then do
    let room ← subtract 64 s.bufferLen
    let toCopy := min data.length room
    copy .buffer s.bufferLen (.chunk data.length) 0 toCopy
    let s := { s with
      buffer := memcpy s.buffer s.bufferLen (data.take toCopy), bufferLen := s.bufferLen + toCopy }
    if s.bufferLen = 64 then do
      read .buffer 0 64
      pure ({ s.processBlock s.buffer with bufferLen := 0 }, toCopy)
    else pure (s, toCopy)
  else pure (s, 0)

def processBlocksTraced (s : SHA256) (data : Bytes) (offset : Nat) :
    Traced Access (SHA256 × Nat) :=
  if offset + 64 ≤ data.length then do
    read (.chunk data.length) offset 64
    processBlocksTraced (s.processBlock ((data.drop offset).take 64)) data (offset + 64)
  else pure (s, offset)
termination_by data.length - offset

def keepTailTraced (s : SHA256) (data : Bytes) (offset : Nat) : Traced Access SHA256 :=
  if offset < data.length then do
    let left ← subtract data.length offset
    copy .buffer 0 (.chunk data.length) offset left
    pure { s with buffer := memcpy s.buffer 0 (data.drop offset), bufferLen := left }
  else pure s

def updateTraced (s : SHA256) (data : Bytes) : Traced Access SHA256 := do
  let filled ←
    fillBufferTraced { s with totalLen := s.totalLen + UInt64.ofNat data.length } data
  let processed ← processBlocksTraced filled.1 data filled.2
  keepTailTraced processed.1 data processed.2

def padLenTraced (bufferLen : Nat) : Traced Access Nat :=
  if bufferLen < 56 then subtract 56 bufferLen else subtract 120 bufferLen

/-- The pad is filled with zeros and marked, then the filled part of it is handed to `update`. -/
def padTraced (bufferLen : Nat) : Traced Access Bytes := do
  let padLen ← padLenTraced bufferLen
  write .pad 0 padLen
  write .pad 0 1
  read .pad 0 padLen
  pure ((List.replicate padLen 0).set 0 0x80)

def lenPadTraced (bitLen : UInt64) : Traced Access Bytes :=
  (List.range 8).foldlM
    (fun p i => do
      let j ← subtract 7 i
      write .lenPad j 1
      pure (p.set j (bitLen >>> UInt64.ofNat (i * 8)).toUInt8))
    (List.replicate 8 0)

def finalBlockTraced (bitLen : UInt64) (s : SHA256) : Traced Access Bytes := do
  copy .finalBlock 0 .buffer 0 s.bufferLen
  write .finalBlock s.bufferLen 1
  let head := s.buffer.take s.bufferLen
  let block := (memcpy (List.replicate 64 0) 0 head).set head.length 0x80
  (List.range 8).foldlM
    (fun b i => do
      let shift ← subtract 56 (8 * i)
      write .finalBlock (56 + i) 1
      pure (b.set (56 + i) (bitLen >>> UInt64.ofNat shift).toUInt8))
    block

def finalizeTraced (s : SHA256) : Traced Access (Bytes × SHA256) := do
  let bitLen := s.totalLen * 8
  let pad ← padTraced s.bufferLen
  let s ← updateTraced s pad
  let lenPad ← lenPadTraced bitLen
  copy .buffer 0 .lenPad 0 8
  let s := { s with buffer := memcpy s.buffer 0 lenPad, bufferLen := 8 }
  let block ← finalBlockTraced bitLen s
  read .finalBlock 0 64
  let s := s.processBlock block
  pure (s.h.toList.flatMap hexWord, s)

/-! ## The values are those of the code -/

theorem fillBufferTraced_value (s : SHA256) (data : Bytes) :
    (fillBufferTraced s data).value = s.fillBuffer data := by
  unfold fillBufferTraced fillBuffer
  split
  · dsimp only [Traced.value_bind, subtract, copy]
    split
    · rfl
    · rfl
  · rfl

theorem processBlocksTraced_value (s : SHA256) (data : Bytes) (offset : Nat) :
    (processBlocksTraced s data offset).value = s.processBlocks data offset := by
  induction s, offset using processBlocks.induct data with
  | case1 s offset more ih =>
      rw [processBlocksTraced, processBlocks, if_pos more, if_pos more, Traced.value_bind, ih]
  | case2 s offset done =>
      rw [processBlocksTraced, processBlocks, if_neg done, if_neg done, Traced.value_pure]

theorem updateTraced_value (s : SHA256) (data : Bytes) :
    (updateTraced s data).value = s.update data := by
  unfold updateTraced update keepTailTraced
  simp only [Traced.value_bind, fillBufferTraced_value, processBlocksTraced_value]
  split
  · rfl
  · rfl

theorem padTraced_value (bufferLen : Nat) : (padTraced bufferLen).value = padBytes bufferLen := by
  unfold padTraced padLenTraced padBytes
  split
  · rfl
  · rfl

theorem lenPadTraced_value (bitLen : UInt64) : (lenPadTraced bitLen).value = lenPad bitLen :=
  Traced.value_foldlM _ _ _

theorem finalBlockTraced_value (bitLen : UInt64) (s : SHA256) :
    (finalBlockTraced bitLen s).value = finalBlock bitLen (s.buffer.take s.bufferLen) :=
  Traced.value_foldlM _ _ _

theorem finalizeTraced_value (s : SHA256) : s.finalizeTraced.value = s.finalize := by
  unfold finalizeTraced finalize
  simp only [Traced.value_bind, padTraced_value, updateTraced_value, lenPadTraced_value,
    finalBlockTraced_value, Traced.value_pure]

/-! ## The accesses are in range -/

theorem subtract_inRange {x y : Nat} (le : y ≤ x) : (subtract x y).All Access.InRange :=
  List.forall_mem_singleton.mpr le

theorem read_inRange (region : Region) {offset count : Nat}
    (inside : offset + count ≤ region.size) : (read region offset count).All Access.InRange :=
  List.forall_mem_singleton.mpr inside

theorem write_inRange (region : Region) {offset count : Nat}
    (inside : offset + count ≤ region.size) : (write region offset count).All Access.InRange :=
  List.forall_mem_singleton.mpr inside

theorem copy_inRange (dst src : Region) {dstOffset srcOffset count : Nat}
    (room : dstOffset + count ≤ dst.size) (inside : srcOffset + count ≤ src.size) :
    (copy dst dstOffset src srcOffset count).All Access.InRange :=
  List.forall_mem_cons.mpr ⟨room, List.forall_mem_singleton.mpr inside⟩

theorem fillBufferTraced_inRange {s : SHA256} (data : Bytes) (fits : s.bufferLen < 64) :
    (fillBufferTraced s data).All Access.InRange := by
  unfold fillBufferTraced
  split
  · apply (subtract_inRange fits.le).bind
    apply Traced.All.bind
    · apply copy_inRange
      · show s.bufferLen + min data.length (64 - s.bufferLen) ≤ 64
        omega
      · show 0 + min data.length (64 - s.bufferLen) ≤ data.length
        omega
    · dsimp only
      split
      · exact (read_inRange .buffer (by decide)).bind (Traced.all_pure _)
      · exact Traced.all_pure _
  · exact Traced.all_pure _

theorem processBlocksTraced_inRange (s : SHA256) (data : Bytes) (offset : Nat) :
    (processBlocksTraced s data offset).All Access.InRange := by
  induction s, offset using processBlocks.induct data with
  | case1 s offset more ih =>
      rw [processBlocksTraced, if_pos more]
      exact (read_inRange _ more).bind ih
  | case2 s offset done =>
      rw [processBlocksTraced, if_neg done]
      exact Traced.all_pure _

/-- Less than a block is left behind the loop. -/
theorem processBlocks_stop (s : SHA256) (data : Bytes) (offset : Nat) :
    data.length < (s.processBlocks data offset).2 + 64 := by
  induction s, offset using processBlocks.induct data with
  | case1 s offset more ih => rwa [processBlocks, if_pos more]
  | case2 s offset done =>
      rw [processBlocks, if_neg done]
      exact not_le.mp done

theorem keepTailTraced_inRange (s : SHA256) {data : Bytes} {offset : Nat}
    (short : data.length < offset + 64) : (keepTailTraced s data offset).All Access.InRange := by
  unfold keepTailTraced
  split
  · rename_i more
    apply (subtract_inRange more.le).bind
    apply Traced.All.bind
    · apply copy_inRange
      · show 0 + (data.length - offset) ≤ 64
        omega
      · show offset + (data.length - offset) ≤ data.length
        omega
    · exact Traced.all_pure _
  · exact Traced.all_pure _

theorem updateTraced_inRange {s : SHA256} (data : Bytes) (fits : s.bufferLen < 64) :
    (updateTraced s data).All Access.InRange := by
  unfold updateTraced
  apply Traced.All.bind
  · exact fillBufferTraced_inRange data fits
  apply (processBlocksTraced_inRange _ data _).bind
  apply keepTailTraced_inRange
  rw [processBlocksTraced_value]
  exact processBlocks_stop _ data _

theorem padLenTraced_inRange {bufferLen : Nat} (fits : bufferLen < 64) :
    (padLenTraced bufferLen).All Access.InRange := by
  unfold padLenTraced
  split
  · rename_i early
    exact subtract_inRange early.le
  · exact subtract_inRange (by omega)

theorem padLenTraced_value {bufferLen : Nat} (fits : bufferLen < 64) :
    1 ≤ (padLenTraced bufferLen).value ∧ (padLenTraced bufferLen).value ≤ 64 := by
  unfold padLenTraced subtract
  split
  · dsimp only
    omega
  · dsimp only
    omega

theorem padTraced_inRange {bufferLen : Nat} (fits : bufferLen < 64) :
    (padTraced bufferLen).All Access.InRange := by
  obtain ⟨positive, room⟩ := padLenTraced_value fits
  have inside : 0 + (padLenTraced bufferLen).value ≤ 64 := by omega
  unfold padTraced
  apply (padLenTraced_inRange fits).bind
  apply (write_inRange .pad inside).bind
  apply (write_inRange .pad (by decide)).bind
  exact (read_inRange .pad inside).bind (Traced.all_pure _)

theorem lenPadTraced_inRange (bitLen : UInt64) : (lenPadTraced bitLen).All Access.InRange := by
  apply Traced.All.foldlM
  intro p i member
  have within : i < 8 := List.mem_range.mp member
  apply (subtract_inRange (Nat.le_of_lt_succ within)).bind
  have inside : 7 - i + 1 ≤ 8 := by omega
  exact (write_inRange .lenPad inside).bind (Traced.all_pure _)

theorem finalBlockTraced_inRange (bitLen : UInt64) {s : SHA256} (fits : s.bufferLen < 64) :
    (finalBlockTraced bitLen s).All Access.InRange := by
  unfold finalBlockTraced
  have inside : 0 + s.bufferLen ≤ 64 := by omega
  apply (copy_inRange .finalBlock .buffer inside inside).bind
  apply (write_inRange .finalBlock fits).bind
  apply Traced.All.foldlM
  intro b i member
  have within : i < 8 := List.mem_range.mp member
  have shift : 8 * i ≤ 56 := by omega
  apply (subtract_inRange shift).bind
  have inside : 56 + i + 1 ≤ 64 := by omega
  exact (write_inRange .finalBlock inside).bind (Traced.all_pure _)

theorem finalizeTraced_inRange {s : SHA256} (fits : s.bufferLen < 64) :
    (finalizeTraced s).All Access.InRange := by
  unfold finalizeTraced
  apply (padTraced_inRange fits).bind
  apply (updateTraced_inRange _ fits).bind
  apply (lenPadTraced_inRange _).bind
  apply (copy_inRange .buffer .lenPad (by decide) (by decide)).bind
  apply (finalBlockTraced_inRange _ (show 8 < 64 by decide)).bind
  exact (read_inRange .finalBlock (by decide)).bind (Traced.all_pure _)

/-! ## Every reachable state -/

inductive Reached : SHA256 → Prop where
  | new (buffer : Bytes) (size : buffer.length = 64) : Reached (new buffer)
  | update {s : SHA256} (data : Bytes) (reached : Reached s) : Reached (s.update data)

theorem Reached.buffered {s : SHA256} (reached : Reached s) : ∃ m, Buffered s m := by
  induction reached with
  | new buffer size => exact ⟨[], new_buffered buffer size⟩
  | update data reached ih =>
      obtain ⟨m, held⟩ := ih
      exact ⟨m ++ data, update_buffered data held⟩

/-- A pad fills up the buffer to the place of the length, whatever the buffer holds. -/
theorem update_padBytes {s : SHA256} {m : Bytes} (held : Buffered s m) :
    (s.update (padBytes s.bufferLen)).bufferLen = 56 := by
  rw [(update_padded held).bufferLen, ← rest_length]
  exact rest_padded_length m

theorem padBytes_length {bufferLen : Nat} (fits : bufferLen < 64) :
    1 ≤ (padBytes bufferLen).length ∧ (padBytes bufferLen).length ≤ 64 := by
  have length : (padBytes bufferLen).length = (padLenTraced bufferLen).value := by
    rw [← padTraced_value, padTraced]
    simp only [Traced.value_bind, Traced.value_pure, List.length_set, List.length_replicate]
  rw [length]
  exact padLenTraced_value fits

theorem reached_inRange {s : SHA256} (reached : Reached s) :
    s.bufferLen < 64 ∧ s.buffer.length = Region.buffer.size ∧
    (∀ data, (s.updateTraced data).value = s.update data ∧
      (s.updateTraced data).All Access.InRange) ∧
    s.finalizeTraced.value = s.finalize ∧ s.finalizeTraced.All Access.InRange ∧
    1 ≤ (padBytes s.bufferLen).length ∧ (padBytes s.bufferLen).length ≤ Region.pad.size ∧
    (s.update (padBytes s.bufferLen)).bufferLen = 56 := by
  obtain ⟨m, held⟩ := reached.buffered
  have fits : s.bufferLen < 64 := by
    rw [held.bufferLen]
    exact Nat.mod_lt _ (by decide)
  obtain ⟨positive, room⟩ := padBytes_length fits
  refine ⟨fits, held.size, ?_, finalizeTraced_value s, finalizeTraced_inRange fits, positive, room,
    update_padBytes held⟩
  intro data
  exact ⟨updateTraced_value s data, updateTraced_inRange data fits⟩

theorem reached_inRange_abc :
    ((new (List.replicate 64 0)).update [97, 98, 99]).finalizeTraced.All Access.InRange := by
  have fresh : Reached (SHA256.new (List.replicate 64 0)) := .new _ List.length_replicate
  obtain ⟨-, -, -, -, inside, -⟩ := reached_inRange (fresh.update [97, 98, 99])
  exact inside

end SovereignPirtm.Contractivity.SHA256
