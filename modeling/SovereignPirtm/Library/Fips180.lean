import SovereignPirtm.Library.Blocks
import SovereignPirtm.Library.Text
import Mathlib.Data.Nat.NthRoot.Defs

/-!
# SHA-256 as FIPS 180-4 defines it

The functions, constants, padding, message schedule and compression of the standard (sections 4.1.2,
4.2.2, 5.1.1, 5.2.1, 5.3.3 and 6.2), on byte-aligned messages.
-/

namespace SovereignPirtm.Library.Fips180

abbrev HashValue := Vector UInt32 8

/-! ## Functions on words -/

def rotr (n : Nat) (x : UInt32) : UInt32 := ⟨x.toBitVec.rotateRight n⟩

def ch (x y z : UInt32) : UInt32 := (x &&& y) ^^^ (~~~x &&& z)

def maj (x y z : UInt32) : UInt32 := (x &&& y) ^^^ (x &&& z) ^^^ (y &&& z)

def bigSigma0 (x : UInt32) : UInt32 := rotr 2 x ^^^ rotr 13 x ^^^ rotr 22 x

def bigSigma1 (x : UInt32) : UInt32 := rotr 6 x ^^^ rotr 11 x ^^^ rotr 25 x

def smallSigma0 (x : UInt32) : UInt32 := rotr 7 x ^^^ rotr 18 x ^^^ (x >>> 3)

def smallSigma1 (x : UInt32) : UInt32 := rotr 17 x ^^^ rotr 19 x ^^^ (x >>> 10)

/-! ## Constants -/

def primes : List Nat :=
  [2, 3, 5, 7, 11, 13, 17, 19, 23, 29, 31, 37, 41, 43, 47, 53,
   59, 61, 67, 71, 73, 79, 83, 89, 97, 101, 103, 107, 109, 113, 127, 131,
   137, 139, 149, 151, 157, 163, 167, 173, 179, 181, 191, 193, 197, 199, 211, 223,
   227, 229, 233, 239, 241, 251, 257, 263, 269, 271, 277, 281, 283, 293, 307, 311]

/-- The first 32 bits of the fractional part of the `k`-th root of `p`. -/
def rootFraction (k p : Nat) : UInt32 := UInt32.ofNat (Nat.nthRoot k (p * 2 ^ (32 * k)))

def K (t : Nat) : UInt32 := rootFraction 3 (primes.getD t 0)

def initial : HashValue := Vector.ofFn fun i => rootFraction 2 (primes.getD i 0)

/-! ## Compression of one block -/

def word (block : Bytes) (t : Nat) : UInt32 :=
  ⟨(block.getD (4 * t) 0).toBitVec ++ (block.getD (4 * t + 1) 0).toBitVec ++
    (block.getD (4 * t + 2) 0).toBitVec ++ (block.getD (4 * t + 3) 0).toBitVec⟩

def schedule (block : Bytes) (t : Nat) : UInt32 :=
  if t < 16 then word block t
  else smallSigma1 (schedule block (t - 2)) + schedule block (t - 7) +
    smallSigma0 (schedule block (t - 15)) + schedule block (t - 16)
termination_by t

def round (block : Bytes) (v : HashValue) (t : Nat) : HashValue :=
  let t₁ := v.get 7 + bigSigma1 (v.get 4) + ch (v.get 4) (v.get 5) (v.get 6) + K t +
    schedule block t
  let t₂ := bigSigma0 (v.get 0) + maj (v.get 0) (v.get 1) (v.get 2)
  #v[t₁ + t₂, v.get 0, v.get 1, v.get 2, v.get 3 + t₁, v.get 4, v.get 5, v.get 6]

def compress (H : HashValue) (block : Bytes) : HashValue :=
  let v := (List.range 64).foldl (round block) H
  Vector.ofFn fun i => v.get i + H.get i

/-! ## The hash function -/

/-- The least number of zero bytes that leaves eight free bytes in the last block. -/
def zeroCount (l : Nat) : Nat := (119 - l % 64) % 64

def pad (m : Bytes) : Bytes :=
  m ++ (0x80 :: List.replicate (zeroCount m.length) 0) ++ bigEndian 8 (8 * m.length)

def hash (m : Bytes) : HashValue := (blocks 64 (pad m)).foldl compress initial

def hexWord (x : UInt32) : Bytes := (fixedDigits 16 8 x.toNat).map charByte

def hex (H : HashValue) : Bytes := H.toList.flatMap hexWord

def sha256 (m : Bytes) : Bytes := hex (hash m)

/-! ## Digests as texts -/

@[simp] theorem hexWord_length (x : UInt32) : (hexWord x).length = 8 := by simp [hexWord]

theorem hexWord_injective : Function.Injective hexWord := by
  intro x y same
  have bound (z : UInt32) : z.toNat < 16 ^ 8 := z.toNat_lt
  exact UInt32.toNat_inj.mp (fixedDigits_injective (by decide) (bound x) (bound y) same)

theorem hex_injective : Function.Injective hex := by
  intro H H' same
  apply Vector.toList_inj.mp
  exact flatMap_injective hexWord_length hexWord_injective (by simp) same

@[simp] theorem hex_length (H : HashValue) : (hex H).length = 64 := by
  simp [hex, List.length_flatMap]

theorem mem_hex {H : HashValue} {b : UInt8} (member : b ∈ hex H) :
    ∃ d < 16, b = charByte d.digitChar := by
  obtain ⟨x, -, inside⟩ := List.mem_flatMap.mp member
  obtain ⟨c, digit, rfl⟩ := List.mem_map.mp inside
  obtain ⟨d, small, rfl⟩ := mem_fixedDigits (by decide) digit
  exact ⟨d, small, rfl⟩

end SovereignPirtm.Library.Fips180
