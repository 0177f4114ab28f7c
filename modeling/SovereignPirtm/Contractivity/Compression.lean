import SovereignPirtm.Library.Fips180
import SovereignPirtm.Contractivity.Sha256
import Mathlib.Data.List.GetD

/-!
# The compression is that of the standard

`process_block` against `Fips180.compress`: rotations, constants, words, message schedule, rounds.
-/

namespace SovereignPirtm.Contractivity.SHA256
open Library

/-! ## Words -/

theorem rotr_eq (x n : UInt32) (positive : 0 < n.toNat) (small : n.toNat < 32) :
    rotr x n = Fips180.rotr n.toNat x := by
  apply UInt32.toBitVec_inj.mp
  simp only [rotr, Fips180.rotr, UInt32.toBitVec_or, UInt32.toBitVec_shiftRight,
    UInt32.toBitVec_shiftLeft, BitVec.rotateRight_def, BitVec.ushiftRight_eq', BitVec.shiftLeft_eq',
    UInt32.toBitVec_sub, Nat.mod_eq_of_lt small]
  congr 2
  · simp [BitVec.toNat_umod, Nat.mod_eq_of_lt small]
  · simp [BitVec.toNat_umod, BitVec.toNat_sub]
    omega

theorem K_eq (i : Nat) (h : i < 64) : K.getD i 0 = Fips180.K i := by
  have all : ∀ i < 64, K.getD i 0 = Fips180.K i := by decide +kernel
  exact all i h

theorem initialH_eq : initialH = Fips180.initial := by decide +kernel

theorem toNat_shifted_byte (x : UInt8) {k : Nat} (room : k ≤ 24) :
    (x.toUInt32 <<< UInt32.ofNat k).toNat = x.toNat <<< k := by
  have shift : (UInt32.ofNat k).toNat = k := UInt32.toNat_ofNat_of_lt' (by simp [UInt32.size]; omega)
  have bound : x.toNat <<< k < 2 ^ 32 := by
    rw [Nat.shiftLeft_eq]
    calc x.toNat * 2 ^ k < 2 ^ 8 * 2 ^ k := Nat.mul_lt_mul_of_pos_right x.toNat_lt (by positivity)
      _ = 2 ^ (8 + k) := (Nat.pow_add 2 8 k).symm
      _ ≤ 2 ^ 32 := Nat.pow_le_pow_right (by decide) (by omega)
  rw [UInt32.toNat_shiftLeft, shift, UInt8.toNat_toUInt32, Nat.mod_eq_of_lt (show k < 32 by omega),
    Nat.mod_eq_of_lt bound]

theorem word_eq (a b c d : UInt8) :
    (a.toUInt32 <<< 24) ||| (b.toUInt32 <<< 16) ||| (c.toUInt32 <<< 8) ||| d.toUInt32 =
      ⟨a.toBitVec ++ b.toBitVec ++ c.toBitVec ++ d.toBitVec⟩ := by
  have ha : (a.toUInt32 <<< 24).toNat = a.toNat <<< 24 := toNat_shifted_byte a le_rfl
  have hb : (b.toUInt32 <<< 16).toNat = b.toNat <<< 16 := toNat_shifted_byte b (by decide)
  have hc : (c.toUInt32 <<< 8).toNat = c.toNat <<< 8 := toNat_shifted_byte c (by decide)
  have concat : (a.toBitVec ++ b.toBitVec ++ c.toBitVec ++ d.toBitVec).toNat =
      a.toNat <<< 24 ||| b.toNat <<< 16 ||| c.toNat <<< 8 ||| d.toNat := by
    simp only [BitVec.toNat_append, Nat.shiftLeft_or_distrib, ← Nat.shiftLeft_add,
      UInt8.toNat_toBitVec]
  apply UInt32.toNat_inj.mp
  rw [UInt32.toNat_or, UInt32.toNat_or, UInt32.toNat_or, ha, hb, hc, UInt8.toNat_toUInt32]
  exact concat.symm

/-! ## The message schedule -/

theorem blockWords_length (block : Bytes) : (blockWords block).length = 16 := by
  simp [blockWords]

theorem blockWords_getD (block : Bytes) {t : Nat} (h : t < 16) :
    (blockWords block).getD t 0 = Fips180.word block t := by
  simp only [blockWords, List.getD_eq_getElem?_getD, List.getElem?_map, List.getElem?_range h,
    Option.map_some, Option.getD_some, word_eq, Fips180.word, Nat.mul_comm t 4]

theorem smallSigma0_eq (x : UInt32) :
    rotr x 7 ^^^ rotr x 18 ^^^ (x >>> 3) = Fips180.smallSigma0 x := by
  rw [rotr_eq x 7 (by decide) (by decide), rotr_eq x 18 (by decide) (by decide)]
  rfl

theorem smallSigma1_eq (x : UInt32) :
    rotr x 17 ^^^ rotr x 19 ^^^ (x >>> 10) = Fips180.smallSigma1 x := by
  rw [rotr_eq x 17 (by decide) (by decide), rotr_eq x 19 (by decide) (by decide)]
  rfl

theorem bigSigma0_eq (x : UInt32) :
    rotr x 2 ^^^ rotr x 13 ^^^ rotr x 22 = Fips180.bigSigma0 x := by
  rw [rotr_eq x 2 (by decide) (by decide), rotr_eq x 13 (by decide) (by decide),
    rotr_eq x 22 (by decide) (by decide)]
  rfl

theorem bigSigma1_eq (x : UInt32) :
    rotr x 6 ^^^ rotr x 11 ^^^ rotr x 25 = Fips180.bigSigma1 x := by
  rw [rotr_eq x 6 (by decide) (by decide), rotr_eq x 11 (by decide) (by decide),
    rotr_eq x 25 (by decide) (by decide)]
  rfl

def Scheduled (block : Bytes) (w : List UInt32) : Prop :=
  ∀ t < w.length, w.getD t 0 = Fips180.schedule block t

theorem blockWords_scheduled (block : Bytes) : Scheduled block (blockWords block) := by
  intro t ht
  rw [blockWords_length] at ht
  rw [blockWords_getD block ht, Fips180.schedule, if_pos ht]

theorem extendWords_scheduled {block : Bytes} {w : List UInt32} (size : 16 ≤ w.length)
    (scheduled : Scheduled block w) : Scheduled block (extendWords w w.length) := by
  intro t ht
  have last : t < w.length ∨ t = w.length := by
    simp only [extendWords, List.length_append, List.length_singleton] at ht
    omega
  rcases last with old | rfl
  · rw [extendWords, List.getD_append _ _ _ _ old]
    exact scheduled t old
  · rw [extendWords, List.getD_append_right _ _ _ _ le_rfl, Fips180.schedule, if_neg (by omega),
      scheduled _ (by omega), scheduled _ (by omega), scheduled _ (by omega),
      scheduled _ (by omega), smallSigma0_eq, smallSigma1_eq]
    simp only [Nat.sub_self, List.getD_cons_zero]
    ac_rfl

theorem extend_loop (block : Bytes) (n : Nat) :
    let w := (List.range' 16 n).foldl extendWords (blockWords block)
    w.length = 16 + n ∧ Scheduled block w := by
  induction n with
  | zero => exact ⟨blockWords_length block, blockWords_scheduled block⟩
  | succ n ih =>
      obtain ⟨size, scheduled⟩ := ih
      rw [List.range'_1_concat, List.foldl_append, List.foldl_cons, List.foldl_nil]
      constructor
      · simp only [extendWords, List.length_append, List.length_singleton, size]
        omega
      · have next := extendWords_scheduled (by omega) scheduled
        rwa [size] at next

theorem scheduleWords_getD (block : Bytes) {t : Nat} (h : t < 64) :
    (scheduleWords block).getD t 0 = Fips180.schedule block t := by
  obtain ⟨size, scheduled⟩ := extend_loop block 48
  exact scheduled t (by omega)

/-! ## The rounds -/

def Working.toVector (v : Working) : Fips180.HashValue := #v[v.a, v.b, v.c, v.d, v.e, v.f, v.g, v.hh]

theorem round_eq (block : Bytes) (v : Working) {t : Nat} (h : t < 64) :
    (round (scheduleWords block) v t).toVector = Fips180.round block v.toVector t := by
  rw [round, bigSigma0_eq, bigSigma1_eq, K_eq t h, scheduleWords_getD block h]
  rfl

theorem round_loop (block : Bytes) (v : Working) {n : Nat} (h : n ≤ 64) :
    ((List.range n).foldl (round (scheduleWords block)) v).toVector =
      (List.range n).foldl (Fips180.round block) v.toVector := by
  induction n with
  | zero => rfl
  | succ n ih =>
      rw [List.range_succ, List.foldl_append, List.foldl_append, ← ih (by omega)]
      exact round_eq block _ (by omega)

theorem toVector_ofHash (h : Vector UInt32 8) : (Working.ofHash h).toVector = h := by
  apply Vector.ext
  intro i hi
  interval_cases i <;> rfl

theorem addTo_eq (v : Working) (h : Vector UInt32 8) :
    v.addTo h = Vector.ofFn fun i => v.toVector.get i + h.get i := by
  apply Vector.ext
  intro i hi
  rw [Vector.getElem_ofFn]
  interval_cases i <;> exact UInt32.add_comm _ _

theorem compressBlock_eq (h : Vector UInt32 8) (block : Bytes) :
    compressBlock h block = Fips180.compress h block := by
  rw [compressBlock, Fips180.compress, addTo_eq, round_loop block _ le_rfl, toVector_ofHash]

end SovereignPirtm.Contractivity.SHA256
