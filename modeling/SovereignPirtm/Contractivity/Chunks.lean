import SovereignPirtm.Contractivity.Compression
import SovereignPirtm.Contractivity.Streaming

/-!
# Feeding a message in chunks

The state after any number of updates is that of the message they add up to, with the compression of
the standard.
-/

namespace SovereignPirtm.Contractivity.SHA256
open Library

def feed (s : SHA256) (chunks : List Bytes) : SHA256 := chunks.foldl update s

structure Streamed (s : SHA256) (m : Bytes) : Prop where
  h : s.h = (blocks 64 m).foldl Fips180.compress Fips180.initial
  bufferLen : s.bufferLen = m.length % 64
  buffer : s.buffer.take s.bufferLen = rest 64 m
  totalLen : s.totalLen.toNat = m.length

/-- All of the state but the bytes of the buffer that are not in use. -/
def inUse (s : SHA256) : Vector UInt32 8 × UInt64 × Nat × Bytes :=
  (s.h, s.totalLen, s.bufferLen, s.buffer.take s.bufferLen)

theorem feed_spec {s : SHA256} {m : Bytes} (held : Buffered s m) (chunks : List Bytes) :
    Buffered (s.feed chunks) (m ++ chunks.flatten) ∧
      (s.feed chunks).totalLen = s.totalLen + UInt64.ofNat chunks.flatten.length := by
  induction chunks generalizing s m with
  | nil => simpa [feed] using held
  | cons chunk chunks ih =>
      obtain ⟨next, counted⟩ := update_spec chunk held
      obtain ⟨final, total⟩ := ih next
      rw [List.flatten_cons, ← List.append_assoc]
      refine ⟨final, total.trans ?_⟩
      rw [counted, List.length_append, UInt64.ofNat_add, UInt64.add_assoc]

theorem Streamed.inUse_eq {s s' : SHA256} {m : Bytes} (streamed : Streamed s m)
    (other : Streamed s' m) : s.inUse = s'.inUse := by
  have totalLen : s.totalLen = s'.totalLen :=
    UInt64.toNat_inj.mp (streamed.totalLen.trans other.totalLen.symm)
  rw [inUse, inUse, streamed.buffer, other.buffer, streamed.bufferLen, other.bufferLen, streamed.h,
    other.h, totalLen]

theorem feed_new {buffer : Bytes} (size : buffer.length = 64) {chunks : List Bytes}
    (short : chunks.flatten.length < 2 ^ 64) :
    Streamed ((new buffer).feed chunks) chunks.flatten := by
  obtain ⟨held, counted⟩ := feed_spec (new_buffered buffer size) chunks
  rw [List.nil_append] at held
  constructor
  · have same : compressBlock = Fips180.compress := funext fun H => funext (compressBlock_eq H)
    rw [held.h, same, initialH_eq]
  · exact held.bufferLen
  · exact held.buffer
  · rw [counted, show (new buffer).totalLen = 0 from rfl, UInt64.zero_add]
    exact UInt64.toNat_ofNat_of_lt' short

/-- The state of a fresh object that was fed any chunks is that of their concatenation, however it
was cut. -/
theorem feed_streams {buffer : Bytes} (size : buffer.length = 64) {chunks : List Bytes}
    (short : chunks.flatten.length < 2 ^ 64) :
    Streamed ((new buffer).feed chunks) chunks.flatten ∧
      ∀ (buffer' : Bytes) (chunks' : List Bytes), buffer'.length = 64 →
        chunks'.flatten = chunks.flatten →
          ((new buffer').feed chunks').inUse = ((new buffer).feed chunks).inUse := by
  refine ⟨feed_new size short, ?_⟩
  intro buffer' chunks' size' same
  have streamed := feed_new size' (by rwa [same])
  rw [same] at streamed
  exact streamed.inUse_eq (feed_new size short)

theorem feed_streams_abc :
    Streamed ((new (List.replicate 64 0)).feed [[97], [], [98, 99]]) [97, 98, 99] ∧
      ((new (List.replicate 64 7)).feed [[97, 98], [99]]).inUse =
        ((new (List.replicate 64 0)).feed [[97], [], [98, 99]]).inUse := by
  have size : (List.replicate 64 0 : Bytes).length = 64 := by decide
  have short : ([[97], [], [98, 99]] : List Bytes).flatten.length < 2 ^ 64 := by decide
  exact ⟨(feed_streams size short).1, (feed_streams size short).2 _ _ (by decide) (by decide)⟩

end SovereignPirtm.Contractivity.SHA256
