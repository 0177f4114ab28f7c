import Mathlib.Tactic

/-!
# Byte strings

Strings as bare byte sequences, string literals, and numbers printed in a base: with as many
digits as the number needs, or with a fixed number of digits and leading zeros.
-/

namespace SovereignPirtm.Library

abbrev Bytes := List UInt8

def str (s : String) : Bytes := s.toUTF8.data.toList

def charByte (c : Char) : UInt8 := c.toNat.toUInt8

def decimal (n : Nat) : Bytes := (Nat.toDigits 10 n).map charByte

def decimalInt (i : Int) : Bytes :=
  if i < 0 then str "-" ++ decimal i.natAbs else decimal i.natAbs

/-- The last `k` digits of `n` in base `b`, leading zeros included. -/
def fixedDigits (b : Nat) : Nat → Nat → List Char
  | 0, _ => []
  | k+1, n => fixedDigits b k (n / b) ++ [(n % b).digitChar]

@[simp] theorem fixedDigits_length (b k n : Nat) : (fixedDigits b k n).length = k := by
  induction k generalizing n with
  | zero => rfl
  | succ k ih => simp [fixedDigits, ih]

theorem leftpad_toDigits {b k n : Nat} (base : 1 < b) (fits : n < b ^ (k+1)) :
    List.leftpad (k+1) '0' (Nat.toDigits b n) = fixedDigits b (k+1) n := by
  induction k generalizing n with
  | zero =>
      have small : n < b := by simpa using fits
      simp [fixedDigits, Nat.toDigits_of_lt_base small, Nat.mod_eq_of_lt small, List.leftpad]
  | succ k ih =>
      have quotient : n / b < b ^ (k+1) := by
        rw [Nat.div_lt_iff_lt_mul (by omega), ← Nat.pow_succ]
        exact fits
      rw [fixedDigits, ← ih quotient, Nat.toDigits_eq_if base]
      split
      · rename_i small
        simp [List.leftpad, Nat.div_eq_of_lt small, Nat.mod_eq_of_lt small, List.replicate_succ']
      · simp [List.leftpad]

theorem mem_fixedDigits {b k n : Nat} {c : Char} (base : 0 < b) (member : c ∈ fixedDigits b k n) :
    ∃ d < b, c = d.digitChar := by
  induction k generalizing n with
  | zero => simp [fixedDigits] at member
  | succ k ih =>
      rcases List.mem_append.mp member with high | low
      · exact ih high
      · exact ⟨n % b, Nat.mod_lt _ base, List.mem_singleton.mp low⟩

theorem digitByte_injective {m n : Nat} (hm : m < 16) (hn : n < 16)
    (same : charByte m.digitChar = charByte n.digitChar) : m = n := by
  have all : ∀ m < 16, ∀ n < 16, charByte m.digitChar = charByte n.digitChar → m = n := by decide
  exact all m hm n hn same

theorem fixedDigits_injective {b k m n : Nat} (small : b ≤ 16) (hm : m < b ^ k) (hn : n < b ^ k)
    (same : (fixedDigits b k m).map charByte = (fixedDigits b k n).map charByte) : m = n := by
  induction k generalizing m n with
  | zero => simp at hm hn; omega
  | succ k ih =>
      have base : 0 < b := by
        rcases Nat.eq_zero_or_pos b with rfl | h
        · simp at hm
        · exact h
      rw [fixedDigits, fixedDigits, List.map_append, List.map_append] at same
      obtain ⟨high, low⟩ := List.append_inj' same rfl
      have quotient : m / b = n / b := ih
        (by rwa [Nat.div_lt_iff_lt_mul base, ← Nat.pow_succ])
        (by rwa [Nat.div_lt_iff_lt_mul base, ← Nat.pow_succ]) high
      have digit : m % b = n % b := digitByte_injective
        ((Nat.mod_lt _ base).trans_le small) ((Nat.mod_lt _ base).trans_le small)
        (List.singleton_inj.mp low)
      rw [← Nat.div_add_mod m b, ← Nat.div_add_mod n b, quotient, digit]

theorem flatMap_injective {α β : Type*} {f : α → List β} {k : Nat} (size : ∀ a, (f a).length = k)
    (injective : Function.Injective f) {xs ys : List α} (count : xs.length = ys.length)
    (same : xs.flatMap f = ys.flatMap f) : xs = ys := by
  induction xs generalizing ys with
  | nil => exact (List.length_eq_zero_iff.mp count.symm).symm
  | cons x xs ih =>
      cases ys with
      | nil => simp at count
      | cons y ys =>
          rw [List.flatMap_cons, List.flatMap_cons] at same
          obtain ⟨head, tail⟩ := List.append_inj same (by rw [size, size])
          rw [injective head, ih (by simpa using count) tail]

def bigEndian : Nat → Nat → Bytes
  | 0, _ => []
  | k+1, n => bigEndian k (n / 256) ++ [UInt8.ofNat n]

@[simp] theorem bigEndian_length (k n : Nat) : (bigEndian k n).length = k := by
  induction k generalizing n with
  | zero => rfl
  | succ k ih => simp [bigEndian, ih]

theorem bigEndian_injective {k m n : Nat} (hm : m < 256 ^ k) (hn : n < 256 ^ k)
    (same : bigEndian k m = bigEndian k n) : m = n := by
  induction k generalizing m n with
  | zero => simp at hm hn; omega
  | succ k ih =>
      obtain ⟨high, low⟩ := List.append_inj' same rfl
      have quotient : m / 256 = n / 256 := ih
        (by rwa [Nat.div_lt_iff_lt_mul (by decide), ← Nat.pow_succ])
        (by rwa [Nat.div_lt_iff_lt_mul (by decide), ← Nat.pow_succ]) high
      have byte : m % 256 = n % 256 := by
        simpa using congrArg UInt8.toNat (List.singleton_inj.mp low)
      omega

theorem replicate_marker_injective {α : Type*} {zero marker : α} (different : marker ≠ zero)
    {i j : Nat} {xs ys : List α}
    (same : List.replicate i zero ++ marker :: xs = List.replicate j zero ++ marker :: ys) :
    xs = ys := by
  induction i generalizing j with
  | zero =>
      cases j with
      | zero => exact (List.cons.inj same).2
      | succ j => exact absurd (List.cons.inj same).1 different
  | succ i ih =>
      cases j with
      | zero => exact absurd (List.cons.inj same).1.symm different
      | succ j => exact ih (List.cons.inj same).2

theorem marker_padding_injective {α : Type*} {zero marker : α} (different : marker ≠ zero)
    {i j : Nat} {xs ys : List α}
    (same : xs ++ marker :: List.replicate i zero = ys ++ marker :: List.replicate j zero) :
    xs = ys := by
  have backwards := congrArg List.reverse same
  simp only [List.reverse_append, List.reverse_cons, List.reverse_replicate, List.append_assoc,
    List.singleton_append] at backwards
  exact List.reverse_injective (replicate_marker_injective different backwards)

/-! ## Fields behind separators -/

def fields {α : Type*} (separator : α) (values : List (List α)) : List α :=
  values.flatMap fun value => separator :: value

theorem append_separator_injective {α : Type*} {separator : α} {front₁ front₂ last₁ last₂ : List α}
    (clean₁ : separator ∉ last₁) (clean₂ : separator ∉ last₂)
    (same : front₁ ++ separator :: last₁ = front₂ ++ separator :: last₂) :
    front₁ = front₂ ∧ last₁ = last₂ := by
  rcases List.append_eq_append_iff.mp same with ⟨middle, front, last⟩ | ⟨middle, front, last⟩
  · cases middle with
    | nil => exact ⟨by simpa using front.symm, (List.cons.inj last).2⟩
    | cons x middle => exact absurd ((List.cons.inj last).2 ▸ by simp) clean₁
  · cases middle with
    | nil => exact ⟨by simpa using front, (List.cons.inj last).2.symm⟩
    | cons x middle => exact absurd ((List.cons.inj last).2 ▸ by simp) clean₂

theorem separator_append_injective {α : Type*} {separator : α} {first₁ first₂ rest₁ rest₂ : List α}
    (clean₁ : separator ∉ first₁) (clean₂ : separator ∉ first₂)
    (same : first₁ ++ separator :: rest₁ = first₂ ++ separator :: rest₂) :
    first₁ = first₂ ∧ rest₁ = rest₂ := by
  rcases List.append_eq_append_iff.mp same with ⟨middle, rfl, rest⟩ | ⟨middle, rfl, rest⟩
  · cases middle with
    | nil => exact ⟨(List.append_nil _).symm, (List.cons.inj rest).2⟩
    | cons x middle => exact absurd ((List.cons.inj rest).1 ▸ by simp) clean₂
  · cases middle with
    | nil => exact ⟨List.append_nil _, (List.cons.inj rest).2.symm⟩
    | cons x middle => exact absurd ((List.cons.inj rest).1 ▸ by simp) clean₁

theorem append_fields_injective {α : Type*} {separator : α} {front₁ front₂ : List α}
    {values₁ values₂ : List (List α)} (count : values₁.length = values₂.length)
    (clean₁ : ∀ value ∈ values₁, separator ∉ value) (clean₂ : ∀ value ∈ values₂, separator ∉ value)
    (same : front₁ ++ fields separator values₁ = front₂ ++ fields separator values₂) :
    front₁ = front₂ ∧ values₁ = values₂ := by
  induction values₁ using List.reverseRecOn generalizing values₂ with
  | nil =>
      obtain rfl := List.length_eq_zero_iff.mp count.symm
      simpa [fields] using same
  | append_singleton values₁ last₁ ih =>
      induction values₂ using List.reverseRecOn with
      | nil => simp at count
      | append_singleton values₂ last₂ _ =>
          rw [List.forall_mem_append, List.forall_mem_singleton] at clean₁ clean₂
          have split (values : List (List α)) (last : List α) :
              fields separator (values ++ [last]) =
                fields separator values ++ separator :: last := by
            simp [fields]
          rw [split, split, ← List.append_assoc, ← List.append_assoc] at same
          obtain ⟨earlier, last⟩ := append_separator_injective clean₁.2 clean₂.2 same
          obtain ⟨front, values⟩ := ih (by simpa using count) clean₁.1 clean₂.1 earlier
          exact ⟨front, by rw [values, last]⟩

theorem charByte_of_isDigit {c : Char} (digit : c.isDigit) :
    48 ≤ (charByte c).toNat ∧ (charByte c).toNat ≤ 57 ∧ Char.ofNat (charByte c).toNat = c := by
  have range : 48 ≤ c.toNat ∧ c.toNat ≤ 57 := by
    rw [Char.isDigit, Bool.and_eq_true, decide_eq_true_iff, decide_eq_true_iff] at digit
    exact ⟨UInt32.le_iff_toNat_le.mp digit.1, UInt32.le_iff_toNat_le.mp digit.2⟩
  have byte : (charByte c).toNat = c.toNat := by
    rw [charByte, Nat.toUInt8, UInt8.toNat_ofNat']
    omega
  rw [byte, Char.ofNat_toNat]
  exact ⟨range.1, range.2, rfl⟩

theorem mem_decimal {n : Nat} {b : UInt8} (member : b ∈ decimal n) :
    48 ≤ b.toNat ∧ b.toNat ≤ 57 := by
  obtain ⟨c, digit, rfl⟩ := List.mem_map.mp member
  have range := charByte_of_isDigit (Nat.isDigit_of_mem_toDigits (by decide) (by decide) digit)
  exact ⟨range.1, range.2.1⟩

theorem decimal_injective : Function.Injective decimal := by
  have back (n : Nat) : (decimal n).map (fun b => Char.ofNat b.toNat) = Nat.toDigits 10 n := by
    rw [decimal, List.map_map]
    conv_rhs => rw [← List.map_id (Nat.toDigits 10 n)]
    apply List.map_congr_left
    intro c member
    exact (charByte_of_isDigit (Nat.isDigit_of_mem_toDigits (by decide) (by decide) member)).2.2
  intro m n same
  rw [← Nat.ofDigitChars_ten_toDigits (n := m), ← back, same, back, Nat.ofDigitChars_ten_toDigits]

end SovereignPirtm.Library
