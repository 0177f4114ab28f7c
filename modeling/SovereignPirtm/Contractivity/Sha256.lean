import SovereignPirtm.Library.Text

/-!
# The SHA-256 object

The anonymous-namespace `SHA256` of `ContractivityReceipt.cpp`: its state, the block compression, the
buffering `update`, and `finalize` with its hand-made last block. A pointer argument is the list of
bytes it points to; `size_t` values are naturals, `total_len` wraps at 64 bits as in the source.
-/

namespace SovereignPirtm.Contractivity
open Library

structure SHA256 where
  h : Vector UInt32 8
  totalLen : UInt64
  buffer : Bytes
  bufferLen : Nat
  /-- Ghost: every block handed to `processBlock` so far, in order. Nothing reads it. -/
  processed : List Bytes

namespace SHA256

def K : List UInt32 := [
  0x428a2f98, 0x71374491, 0xb5c0fbcf, 0xe9b5dba5,
  0x3956c25b, 0x59f111f1, 0x923f82a4, 0xab1c5ed5,
  0xd807aa98, 0x12835b01, 0x243185be, 0x550c7dc3,
  0x72be5d74, 0x80deb1fe, 0x9bdc06a7, 0xc19bf174,
  0xe49b69c1, 0xefbe4786, 0x0fc19dc6, 0x240ca1cc,
  0x2de92c6f, 0x4a7484aa, 0x5cb0a9dc, 0x76f988da,
  0x983e5152, 0xa831c66d, 0xb00327c8, 0xbf597fc7,
  0xc6e00bf3, 0xd5a79147, 0x06ca6351, 0x14292967,
  0x27b70a85, 0x2e1b2138, 0x4d2c6dfc, 0x53380d13,
  0x650a7354, 0x766a0abb, 0x81c2c92e, 0x92722c85,
  0xa2bfe8a1, 0xa81a664b, 0xc24b8b70, 0xc76c51a3,
  0xd192e819, 0xd6990624, 0xf40e3585, 0x106aa070,
  0x19a4c116, 0x1e376c08, 0x2748774c, 0x34b0bcb5,
  0x391c0cb3, 0x4ed8aa4a, 0x5b9cca4f, 0x682e6ff3,
  0x748f82ee, 0x78a5636f, 0x84c87814, 0x8cc70208,
  0x90befffa, 0xa4506ceb, 0xbef9a3f7, 0xc67178f2]

def initialH : Vector UInt32 8 := #v[
  0x6a09e667, 0xbb67ae85, 0x3c6ef372, 0xa54ff53a,
  0x510e527f, 0x9b05688c, 0x1f83d9ab, 0x5be0cd19]

def reset (s : SHA256) : SHA256 := { s with h := initialH, totalLen := 0, bufferLen := 0 }

/-- The constructor. The buffer it leaves is indeterminate, so it is an argument. -/
def new (buffer : Bytes) : SHA256 := reset ⟨initialH, 0, buffer, 0, []⟩

/-! ## One block -/

def rotr (x n : UInt32) : UInt32 := (x >>> n) ||| (x <<< (32 - n))

def blockWords (block : Bytes) : List UInt32 :=
  (List.range 16).map fun i =>
    ((block.getD (i * 4) 0).toUInt32 <<< 24) ||| ((block.getD (i * 4 + 1) 0).toUInt32 <<< 16) |||
      ((block.getD (i * 4 + 2) 0).toUInt32 <<< 8) ||| (block.getD (i * 4 + 3) 0).toUInt32

def extendWords (w : List UInt32) (i : Nat) : List UInt32 :=
  let s0 := rotr (w.getD (i - 15) 0) 7 ^^^ rotr (w.getD (i - 15) 0) 18 ^^^ (w.getD (i - 15) 0 >>> 3)
  let s1 := rotr (w.getD (i - 2) 0) 17 ^^^ rotr (w.getD (i - 2) 0) 19 ^^^ (w.getD (i - 2) 0 >>> 10)
  w ++ [w.getD (i - 16) 0 + s0 + w.getD (i - 7) 0 + s1]

def scheduleWords (block : Bytes) : List UInt32 :=
  (List.range' 16 48).foldl extendWords (blockWords block)

structure Working where
  (a b c d e f g hh : UInt32)

def round (w : List UInt32) (v : Working) (i : Nat) : Working :=
  let S1 := rotr v.e 6 ^^^ rotr v.e 11 ^^^ rotr v.e 25
  let ch := (v.e &&& v.f) ^^^ (~~~v.e &&& v.g)
  let temp1 := v.hh + S1 + ch + K.getD i 0 + w.getD i 0
  let S0 := rotr v.a 2 ^^^ rotr v.a 13 ^^^ rotr v.a 22
  let maj := (v.a &&& v.b) ^^^ (v.a &&& v.c) ^^^ (v.b &&& v.c)
  let temp2 := S0 + maj
  { hh := v.g, g := v.f, f := v.e, e := v.d + temp1, d := v.c, c := v.b, b := v.a,
    a := temp1 + temp2 }

def Working.ofHash (h : Vector UInt32 8) : Working :=
  ⟨h[0], h[1], h[2], h[3], h[4], h[5], h[6], h[7]⟩

def Working.addTo (v : Working) (h : Vector UInt32 8) : Vector UInt32 8 :=
  #v[h[0] + v.a, h[1] + v.b, h[2] + v.c, h[3] + v.d, h[4] + v.e, h[5] + v.f, h[6] + v.g, h[7] + v.hh]

def compressBlock (h : Vector UInt32 8) (block : Bytes) : Vector UInt32 8 :=
  ((List.range 64).foldl (round (scheduleWords block)) (.ofHash h)).addTo h

def processBlock (s : SHA256) (block : Bytes) : SHA256 :=
  { s with h := compressBlock s.h block, processed := s.processed ++ [block] }

/-! ## Streaming -/

/-- `std::memcpy(dst + offset, src, |src|)`. Bytes past the end of `dst` would make the result
longer than `dst`. -/
def memcpy (dst : Bytes) (offset : Nat) (src : Bytes) : Bytes :=
  dst.take offset ++ src ++ dst.drop (offset + src.length)

def processBlocks (s : SHA256) (data : Bytes) (offset : Nat) : SHA256 × Nat :=
  if offset + 64 ≤ data.length then
    processBlocks (s.processBlock ((data.drop offset).take 64)) data (offset + 64)
  else (s, offset)
termination_by data.length - offset

/-- The first part of `update`: filling a buffer that already holds bytes. -/
def fillBuffer (s : SHA256) (data : Bytes) : SHA256 × Nat :=
  if 0 < s.bufferLen then
    let toCopy := min data.length (64 - s.bufferLen)
    let s := { s with
      buffer := memcpy s.buffer s.bufferLen (data.take toCopy), bufferLen := s.bufferLen + toCopy }
    if s.bufferLen = 64 then ({ s.processBlock s.buffer with bufferLen := 0 }, toCopy)
    else (s, toCopy)
  else (s, 0)

def update (s : SHA256) (data : Bytes) : SHA256 :=
  let s := { s with totalLen := s.totalLen + UInt64.ofNat data.length }
  let (s, offset) := s.fillBuffer data
  let (s, offset) := s.processBlocks data offset
  if offset < data.length then
    { s with buffer := memcpy s.buffer 0 (data.drop offset), bufferLen := data.length - offset }
  else s

/-! ## The last block -/

/-- The part of `pad` that `finalize` fills and passes on: `0x80` and zeros. -/
def padBytes (bufferLen : Nat) : Bytes :=
  let padLen := if bufferLen < 56 then 56 - bufferLen else 120 - bufferLen
  (List.replicate padLen 0).set 0 0x80

def lenPad (bitLen : UInt64) : Bytes :=
  (List.range 8).foldl
    (fun p i => p.set (7 - i) (bitLen >>> UInt64.ofNat (i * 8)).toUInt8) (List.replicate 8 0)

def finalBlock (bitLen : UInt64) (head : Bytes) : Bytes :=
  let block := (memcpy (List.replicate 64 0) 0 head).set head.length 0x80
  (List.range 8).foldl
    (fun b i => b.set (56 + i) (bitLen >>> UInt64.ofNat (56 - 8 * i)).toUInt8) block

def hexWord (x : UInt32) : Bytes := (List.leftpad 8 '0' (Nat.toDigits 16 x.toNat)).map charByte

def finalize (s : SHA256) : Bytes × SHA256 :=
  let bitLen := s.totalLen * 8
  let s := s.update (padBytes s.bufferLen)
  -- the bytes waiting in the buffer are overwritten here, before anything has processed them
  let s := { s with buffer := memcpy s.buffer 0 (lenPad bitLen), bufferLen := 8 }
  let s := s.processBlock (finalBlock bitLen (s.buffer.take s.bufferLen))
  (s.h.toList.flatMap hexWord, s)

end SHA256

/-- A run of `sha256_hex`: the digest and the finished object. The local object's buffer starts out
indeterminate; it is zero here, and no result depends on it (`finalize_new`). -/
def hashRun (data : Bytes) : Bytes × SHA256 :=
  ((SHA256.new (List.replicate 64 0)).update data).finalize

def sha256Hex (data : Bytes) : Bytes := (hashRun data).1

def processedBlocks (data : Bytes) : List Bytes := (hashRun data).2.processed

end SovereignPirtm.Contractivity
