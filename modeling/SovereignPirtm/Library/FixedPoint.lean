import SovereignPirtm.Library.CompactJson

/-!
# Fixed-point numbers in JSON

Numbers with a fixed number of decimals, and objects whose values are written by any writer.
-/

namespace SovereignPirtm.Library.Json

/-! ## Numbers -/

/-- The integer, as so many units of the last decimal. -/
def fixedPoint (minus : Bool) (decimals n : ℕ) : Bytes :=
  (if minus then str "-" else []) ++ decimal (n / 10 ^ decimals) ++ str "." ++
    (fixedDigits 10 decimals n).map charByte

def fixedValue (minus : Bool) (decimals n : ℕ) : ℚ :=
  (if minus then -1 else 1) * n / 10 ^ decimals

theorem digit_fixedDigits {k n : ℕ} {b : UInt8} (member : b ∈ (fixedDigits 10 k n).map charByte) :
    Digit b := by
  obtain ⟨c, digit, rfl⟩ := List.mem_map.mp member
  obtain ⟨d, small, rfl⟩ := mem_fixedDigits (by decide) digit
  have all : ∀ d < 10, 0x30 ≤ (charByte d.digitChar).toNat ∧ (charByte d.digitChar).toNat ≤ 0x39 := by
    decide
  exact all d small

theorem digitsValue_fixedDigits (text : Bytes) (k n : ℕ) :
    digitsValue (text ++ (fixedDigits 10 k n).map charByte) =
      digitsValue text * 10 ^ k + n % 10 ^ k := by
  have digit : ∀ d < 10, (charByte d.digitChar).toNat - 0x30 = d := by decide
  induction k generalizing n with
  | zero => simp [fixedDigits, Nat.mod_one]
  | succ k ih =>
      rw [fixedDigits, List.map_append, ← List.append_assoc, List.map_singleton, digitsValue_append,
        ih, digit (n % 10) (Nat.mod_lt n (by decide)), pow_succ']
      have split : n % (10 * 10 ^ k) = n % 10 + 10 * (n / 10 % 10 ^ k) := Nat.mod_mul
      rw [split]
      ring

theorem numberText_fixedPoint (minus : Bool) {decimals : ℕ} (some_decimals : decimals ≠ 0) (n : ℕ) :
    NumberText (fixedPoint minus decimals n) (fixedValue minus decimals n) := by
  have digits : Digits ((fixedDigits 10 decimals n).map charByte) := by
    refine ⟨fun empty => some_decimals ?_, fun b => digit_fixedDigits⟩
    simpa using congrArg List.length empty
  have point : str "." = [0x2e] := by decide
  have whole : digitsValue (decimal (n / 10 ^ decimals) ++
      (fixedDigits 10 decimals n).map charByte) = n := by
    rw [digitsValue_fixedDigits, digitsValue_decimal]
    exact Nat.div_add_mod' n _
  have sign : Sign (if minus then str "-" else []) (if minus then -1 else 1) := by
    cases minus with
    | false => exact .none
    | true =>
        rw [if_pos rfl, if_pos rfl, show str "-" = [0x2d] by decide]
        exact .minus
  have reads := NumberText.mk sign (intText_decimal (n / 10 ^ decimals)) (.digits digits) .none
  rw [whole, List.length_map, fixedDigits_length, zero_sub, zpow_neg, zpow_natCast] at reads
  have text : (if minus then str "-" else []) ++ decimal (n / 10 ^ decimals) ++
      0x2e :: (fixedDigits 10 decimals n).map charByte ++ [] = fixedPoint minus decimals n := by
    rw [fixedPoint, point, List.append_nil, List.append_assoc _ [0x2e], List.singleton_append]
  have value : ((if minus then -1 else 1 : ℤ) : ℚ) * (n : ℚ) * (10 ^ decimals)⁻¹ =
      fixedValue minus decimals n := by
    rw [fixedValue, div_eq_mul_inv]
    cases minus <;> simp
  rwa [text, value] at reads

/-! ## Objects -/

structure Field where
  name : Bytes
  text : Bytes
  value : Json

namespace Field

def written (f : Field) : Bytes := quoted f.name ++ 0x3a :: f.text

structure Valid (f : Field) : Prop where
  name : Plain f.name
  value : Value f.text f.value

end Field

def joined : List Field → Bytes
  | [] => []
  | [f] => f.written
  | f :: next :: fields => f.written ++ 0x2c :: joined (next :: fields)

def objectText (fields : List Field) : Bytes := 0x7b :: joined fields ++ [0x7d]

theorem separated_joined {fields : List Field} (valid : ∀ f ∈ fields, f.Valid) :
    Separated (Member Value) (joined fields) (fields.map fun f => (f.name, f.value)) := by
  have member (f : Field) (valid : f.Valid) : Member Value f.written (f.name, f.value) := by
    rw [Field.written, ← List.singleton_append, ← List.append_assoc]
    exact .mk (chars_of_plain valid.name) (structural_alone 0x3a) valid.value
  induction fields using joined.induct with
  | case1 => exact .nil
  | case2 f => exact .one (member f (valid f List.mem_cons_self))
  | case3 f next fields ih =>
      rw [List.forall_mem_cons] at valid
      rw [joined, ← List.singleton_append, ← List.append_assoc]
      exact .more (member f valid.1) (structural_alone 0x2c) (ih valid.2)

theorem carries_objectText {fields : List Field} (distinct : (fields.map Field.name).Nodup)
    (valid : ∀ f ∈ fields, f.Valid) :
    Carries (objectText fields) (fields.map fun f => (f.name, f.value)) := by
  refine ⟨_, ⟨[], objectText fields, [], by simp [Whitespace], by simp [Whitespace], ?_, by simp⟩,
    fun field => filter_name ?_⟩
  · exact .object (structural_alone 0x7b) (separated_joined valid) (structural_alone 0x7d)
  · rwa [List.map_map]

/-! ## Plain strings -/

instance : DecidablePred Unescaped := fun _ => inferInstanceAs (Decidable (_ ∧ _))

theorem Plain.append {first second : Bytes} (one : Plain first) (other : Plain second) :
    Plain (first ++ second) := by
  obtain ⟨cs, unescaped, rfl⟩ := one
  obtain ⟨ds, unescaped', rfl⟩ := other
  exact ⟨cs ++ ds, List.forall_mem_append.mpr ⟨unescaped, unescaped'⟩, List.flatMap_append.symm⟩

theorem plain_str {s : String} (unescaped : s.toList.all (decide <| Unescaped ·) = true) :
    Plain (str s) := by
  refine ⟨s.toList, fun c member => of_decide_eq_true (List.all_eq_true.mp unescaped c member), ?_⟩
  rw [str, String.toUTF8_eq_toByteArray, ← String.utf8Encode_toList, List.utf8Encode]
  simp

theorem plain_fixedPoint (minus : Bool) (decimals n : ℕ) : Plain (fixedPoint minus decimals n) := by
  have digit {b : UInt8} (digit : Digit b) :
      0x20 ≤ b.toNat ∧ b.toNat < 0x80 ∧ b.toNat ≠ 0x22 ∧ b.toNat ≠ 0x5c := by
    have := digit.1
    have := digit.2
    omega
  have sign : Ascii (if minus then str "-" else []) := by
    cases minus <;> decide
  have point : Ascii (str ".") := by decide
  apply plain_of_ascii
  intro b member
  simp only [fixedPoint, List.mem_append] at member
  rcases member with ((member | member) | member) | member
  · exact sign b member
  · exact digit (mem_decimal member)
  · exact point b member
  · exact digit (digit_fixedDigits member)

end SovereignPirtm.Library.Json
