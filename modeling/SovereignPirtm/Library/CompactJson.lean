import SovereignPirtm.Library.Json

/-!
# Objects written without escapes

A writer that escapes nothing and prints no white space writes natural numbers and strings as JSON when
every string is plain, and only then: an escape leaves a text with more weight than what it stands for.
-/

namespace SovereignPirtm.Library.Json

/-! ## Strings that need no escape -/

def Plain (value : Bytes) : Prop :=
  ∃ cs : List Char, (∀ c ∈ cs, Unescaped c) ∧ value = cs.flatMap String.utf8EncodeChar

theorem chars_of_plain {value : Bytes} (plain : Plain value) : Chars value value := by
  obtain ⟨cs, unescaped, rfl⟩ := plain
  induction cs with
  | nil => exact .nil
  | cons c cs ih =>
      rw [List.forall_mem_cons] at unescaped
      exact .plain unescaped.1 (ih unescaped.2)

/-! ## Weights -/

/-- Part of neither a number nor, after its first byte, a character: what an escape has more of than
the character that it stands for. -/
def Heavy (b : UInt8) : Bool :=
  !((0x30 ≤ b.toNat && b.toNat ≤ 0x39) || (0x80 ≤ b.toNat && b.toNat < 0xc0) ||
    [0x2b, 0x2d, 0x2e, 0x45, 0x65].contains b)

def weight (text : Bytes) : ℕ := text.countP Heavy

@[simp] theorem weight_nil : weight [] = 0 := rfl

@[simp] theorem weight_append (text more : Bytes) : weight (text ++ more) = weight text + weight more :=
  List.countP_append

theorem weight_cons {b : UInt8} (heavy : Heavy b = true) (text : Bytes) :
    weight (b :: text) = weight text + 1 := List.countP_cons_of_pos heavy

theorem weight_quoted (text : Bytes) : weight (quoted text) = weight text + 2 := by
  rw [quoted, weight_append, weight_cons (by decide), weight_cons (by decide)]
  rfl

theorem weight_cons_le (b : UInt8) (text : Bytes) : weight (b :: text) ≤ weight text + 1 := by
  rw [weight, weight, List.countP_cons]
  split <;> omega

theorem weight_le_of_escaped {text value : Bytes} {P : Prop}
    (escaped : weight value < weight text ∨ text = value ∧ P) : weight value ≤ weight text := by
  rcases escaped with lighter | ⟨rfl, _⟩
  · exact lighter.le
  · exact le_rfl

theorem light_continuation (n : ℕ) : Heavy (UInt8.ofNat (n % 0x40 + 0x80)) = false := by
  have all : ∀ k < 0x40, Heavy (UInt8.ofNat (k + 0x80)) = false := by decide
  exact all (n % 0x40) (Nat.mod_lt n (by decide))

/-- All bytes of a character but its first are light. -/
theorem utf8_weight_le (c : Char) : weight (String.utf8EncodeChar c) ≤ 1 := by
  fun_cases String.utf8EncodeChar c with
  | case1 v => exact weight_cons_le _ []
  | case2 v | case3 v | case4 v =>
      refine (weight_cons_le _ _).trans ?_
      simp only [weight, List.countP_cons, List.countP_nil, light_continuation, Bool.false_eq_true,
        if_false, le_refl]

theorem unit_weight (c : Char) (digits : Bytes) {text value : Bytes}
    (rest : weight value ≤ weight text) :
    weight (String.utf8EncodeChar c ++ value) < weight (0x5c :: 0x75 :: (digits ++ text)) := by
  have one := utf8_weight_le c
  rw [weight_cons (by decide), weight_cons (by decide), weight_append, weight_append]
  omega

/-- Only a string without escapes weighs as much as its text. -/
theorem chars_weight {text value : Bytes} (chars : Chars text value) :
    weight value < weight text ∨ text = value ∧ Plain value := by
  induction chars with
  | nil => exact .inr ⟨rfl, [], by simp⟩
  | @plain c text value unescaped _ ih =>
      rcases ih with lighter | ⟨rfl, cs, all, rfl⟩
      · left
        rw [weight_append, weight_append]
        omega
      · exact .inr ⟨rfl, c :: cs, List.forall_mem_cons.mpr ⟨unescaped, all⟩, rfl⟩
  | @escape letter byte text value member _ ih =>
      left
      have heavy : escapes.all (fun entry => Heavy entry.1) = true := by decide
      have letter_heavy : Heavy letter = true := List.all_eq_true.mp heavy _ member
      have rest := weight_le_of_escaped ih
      have one := weight_cons_le byte value
      rw [weight_cons (show Heavy 0x5c = true by decide), weight_cons letter_heavy]
      omega
  | @unit a b c d unit text value _ _ _ _ ih =>
      exact .inl (unit_weight _ [a, b, c, d] (weight_le_of_escaped ih))
  | @pair a b c d e f g h high low text value _ _ _ _ _ ih =>
      exact .inl (unit_weight _ [a, b, c, d, 0x5c, 0x75, e, f, g, h] (weight_le_of_escaped ih))
  | @unpaired a b c d unit text value _ _ _ ih =>
      exact .inl (unit_weight _ [a, b, c, d] (weight_le_of_escaped ih))

/-! ## Writing -/

def write : Json → Bytes
  | .number value => decimal value.num.natAbs
  | .string value => quoted value
  | _ => []

def compactMember (member : Bytes × Json) : Bytes := quoted member.1 ++ 0x3a :: write member.2

def compactMembers : List (Bytes × Json) → Bytes
  | [] => []
  | [member] => compactMember member
  | member :: next :: members => compactMember member ++ 0x2c :: compactMembers (next :: members)

def compact (members : List (Bytes × Json)) : Bytes := 0x7b :: compactMembers members ++ [0x7d]

/-! ## Nothing that is read weighs less than what is written -/

def PlainValue : Json → Prop
  | .string value => Plain value
  | _ => True

open Classical in
/-- One more when the text written is not one of the value. -/
noncomputable def leastWeight (value : Json) : ℕ :=
  weight (write value) + if PlainValue value then 0 else 1

theorem weight_digits {text : Bytes} (digits : ∀ b ∈ text, Digit b) : weight text = 0 := by
  apply List.countP_eq_zero.mpr
  intro b member
  simp [Heavy, (digits b member).1, (digits b member).2]

theorem weight_decimal (n : ℕ) : weight (decimal n) = 0 := weight_digits fun _ => mem_decimal

theorem leastWeight_le {text : Bytes} {value : Json} (reads : Value text value) :
    leastWeight value ≤ weight text := by
  cases reads with
  | null | true | false | array | object => simp [leastWeight, write, PlainValue]
  | number => simp [leastWeight, write, PlainValue, weight_decimal]
  | @string inside value chars =>
      rcases chars_weight chars with lighter | ⟨rfl, plain⟩
      · have extra : leastWeight (.string value) ≤ weight (quoted value) + 1 := by
          rw [leastWeight, write]
          split <;> omega
        rw [weight_quoted] at extra ⊢
        omega
      · rw [leastWeight, if_pos (show PlainValue (.string inside) from plain)]
        exact le_rfl

noncomputable def leastMember (member : Bytes × Json) : ℕ :=
  weight (quoted member.1) + 1 + leastWeight member.2 + 1

theorem structural_weight {mark : UInt8} {text : Bytes} (heavy : Heavy mark = true)
    (structural : Structural mark text) : 1 ≤ weight text := by
  obtain ⟨before, after, _, _, rfl⟩ := structural
  rw [weight_append, weight_cons heavy]
  omega

theorem leastMember_le {text : Bytes} {member : Bytes × Json} (reads : Member Value text member) :
    leastMember member ≤ weight text + 1 := by
  obtain ⟨chars, colon, value⟩ := reads
  have mark := structural_weight (by decide) colon
  have rest := leastWeight_le value
  have name := weight_le_of_escaped (chars_weight chars)
  simp only [leastMember, weight_append, weight_quoted]
  omega

theorem leastMembers_le {text : Bytes} {members : List (Bytes × Json)}
    (reads : Separated (Member Value) text members) :
    (members.map leastMember).sum ≤ weight text + 1 := by
  induction reads with
  | nil => simp
  | one member => simpa using leastMember_le member
  | more member comma _ ih =>
      have first := leastMember_le member
      have mark := structural_weight (by decide) comma
      rw [List.map_cons, List.sum_cons, weight_append, weight_append]
      omega

theorem compactMembers_weight {members : List (Bytes × Json)} (nonempty : members ≠ []) :
    weight (compactMembers members) + 1 =
      (members.map fun member => weight (compactMember member) + 1).sum := by
  induction members using compactMembers.induct with
  | case1 => contradiction
  | case2 member => simp [compactMembers]
  | case3 member next members ih =>
      rw [compactMembers, List.map_cons, List.sum_cons, ← ih (List.cons_ne_nil _ _),
        weight_append, weight_cons (by decide)]
      omega

theorem compactMember_le (member : Bytes × Json) :
    weight (compactMember member) + 1 ≤ leastMember member := by
  rw [compactMember, leastMember, leastWeight, weight_append, weight_cons (by decide)]
  omega

theorem compactMember_lt {member : Bytes × Json} (escaped : ¬ PlainValue member.2) :
    weight (compactMember member) + 1 < leastMember member := by
  rw [compactMember, leastMember, leastWeight, weight_append, weight_cons (by decide),
    if_neg escaped]
  omega

/-- An object read from a compact text that has all its members can have no escape in them. -/
theorem plainValue_of_reads {fields members : List (Bytes × Json)} (distinct : fields.Nodup)
    (reads : Text (compact fields) (.object members)) (covered : fields ⊆ members)
    {field : Bytes × Json} (member : field ∈ fields) : PlainValue field.2 := by
  obtain ⟨before, inside, after, _, _, value, whole⟩ := reads
  cases value with
  | @object start text stop _ left reads right =>
      by_contra escaped
      have heavier : (fields.map fun field => weight (compactMember field) + 1).sum <
          (fields.map leastMember).sum :=
        List.sum_lt_sum _ _ (fun field _ => compactMember_le field)
          ⟨field, member, compactMember_lt escaped⟩
      have part : (fields.map leastMember).sum ≤ (members.map leastMember).sum := by
        obtain ⟨kept, perm, sublist⟩ := List.subperm_of_subset distinct covered
        rw [← (perm.map leastMember).sum_eq]
        exact (sublist.map leastMember).sum_le_sum (by simp)
      have read := leastMembers_le reads
      have written := compactMembers_weight (List.ne_nil_of_mem member)
      have braces := Nat.add_le_add (structural_weight (by decide) left)
        (structural_weight (by decide) right)
      have total := congrArg weight whole
      rw [compact, List.cons_append, weight_cons (by decide), weight_append,
        weight_cons (by decide), weight_append, weight_append, weight_append, weight_append] at total
      rw [weight_nil] at total
      omega

/-! ## Natural numbers -/

theorem decimal_of_ten_le {n : ℕ} (large : 10 ≤ n) :
    decimal n = decimal (n / 10) ++ [charByte (n % 10).digitChar] := by
  rw [decimal, Nat.toDigits_of_base_le (by decide) large, List.map_append, List.map_singleton,
    decimal]

theorem decimal_head {n : ℕ} (positive : 0 < n) :
    ∃ first rest, decimal n = first :: rest ∧ first ≠ 0x30 := by
  induction n using Nat.strong_induction_on with
  | _ n ih =>
      rcases Nat.lt_or_ge n 10 with small | large
      · refine ⟨charByte n.digitChar, [], by rw [decimal, Nat.toDigits_of_lt_base small]; rfl, ?_⟩
        interval_cases n <;> decide
      · obtain ⟨first, rest, split, nonzero⟩ := ih (n / 10) (by omega) (by omega)
        rw [decimal_of_ten_le large, split]
        exact ⟨first, _, rfl, nonzero⟩

theorem intText_decimal (n : ℕ) : IntText (decimal n) := by
  rcases Nat.eq_zero_or_pos n with rfl | positive
  · exact .inl (by decide)
  · obtain ⟨first, rest, split, nonzero⟩ := decimal_head positive
    have digits : ∀ b ∈ first :: rest, Digit b := fun b member => mem_decimal (split ▸ member)
    rw [List.forall_mem_cons] at digits
    exact .inr ⟨first, rest, split, digits.1, nonzero, digits.2⟩

theorem digitsValue_append (text : Bytes) (b : UInt8) :
    digitsValue (text ++ [b]) = 10 * digitsValue text + (b.toNat - 0x30) := by
  rw [digitsValue, List.foldl_append, digitsValue]
  rfl

theorem digitsValue_decimal (n : ℕ) : digitsValue (decimal n) = n := by
  have single : ∀ d < 10, decimal d = [charByte d.digitChar] ∧
      (charByte d.digitChar).toNat - 0x30 = d := by decide
  induction n using Nat.strong_induction_on with
  | _ n ih =>
      rcases Nat.lt_or_ge n 10 with small | large
      · rw [(single n small).1]
        simpa [digitsValue] using (single n small).2
      · rw [decimal_of_ten_le large, digitsValue_append, ih (n / 10) (by omega),
          (single (n % 10) (Nat.mod_lt n (by decide))).2]
        omega

theorem numberText_decimal (n : ℕ) : NumberText (decimal n) n := by
  have reads := NumberText.mk .none (intText_decimal n) .none .none
  simpa [digitsValue_decimal] using reads

/-! ## Printable strings -/

/-- Printable, and neither a quotation mark nor a backslash. -/
def Ascii (text : Bytes) : Prop :=
  ∀ b ∈ text, 0x20 ≤ b.toNat ∧ b.toNat < 0x80 ∧ b.toNat ≠ 0x22 ∧ b.toNat ≠ 0x5c

instance : DecidablePred Ascii := fun text => List.decidableBAll _ text

theorem utf8_of_ascii {b : UInt8} (ascii : b.toNat < 0x80) :
    (Char.ofNat b.toNat).toNat = b.toNat ∧ String.utf8EncodeChar (Char.ofNat b.toNat) = [b] := by
  have all : ∀ n < 0x80, (Char.ofNat n).toNat = n ∧
      String.utf8EncodeChar (Char.ofNat n) = [UInt8.ofNat n] := by decide
  have this := all b.toNat ascii
  rwa [UInt8.ofNat_toNat] at this

theorem ascii_of_utf8 {c : Char} {b : UInt8} {tail rest : Bytes} (ascii : b.toNat < 0x80)
    (same : String.utf8EncodeChar c ++ tail = b :: rest) : c.toNat = b.toNat ∧ tail = rest := by
  revert same
  fun_cases String.utf8EncodeChar c with
  | case1 v small =>
      intro same
      obtain ⟨head, last⟩ := List.cons.inj same
      refine ⟨?_, last⟩
      rw [← head, UInt8.toNat_ofNat', Nat.mod_eq_of_lt (by omega)]
      rfl
  | case2 v | case3 v | case4 v =>
      intro same
      have head := congrArg UInt8.toNat (List.cons.inj same).1
      rw [UInt8.toNat_ofNat'] at head
      omega

theorem plain_cons {b : UInt8} (ascii : b.toNat < 0x80) (rest : Bytes) :
    Plain (b :: rest) ↔ Ascii [b] ∧ Plain rest := by
  rw [Ascii, List.forall_mem_singleton]
  constructor
  · rintro ⟨cs, unescaped, same⟩
    cases cs with
    | nil => simp at same
    | cons c cs =>
        rw [List.forall_mem_cons] at unescaped
        obtain ⟨scalar, tail⟩ := ascii_of_utf8 ascii same.symm
        rw [Unescaped, scalar] at unescaped
        exact ⟨⟨unescaped.1.1, ascii, unescaped.1.2⟩, cs, unescaped.2, tail.symm⟩
  · rintro ⟨⟨printable, -, marks⟩, cs, unescaped, rfl⟩
    obtain ⟨scalar, encoded⟩ := utf8_of_ascii ascii
    refine ⟨Char.ofNat b.toNat :: cs, List.forall_mem_cons.mpr ⟨?_, unescaped⟩, ?_⟩
    · rw [Unescaped, scalar]
      exact ⟨printable, marks⟩
    · rw [List.flatMap_cons, encoded, List.singleton_append]

theorem plain_append {front : Bytes} (ascii : Ascii front) (rest : Bytes) :
    Plain (front ++ rest) ↔ Plain rest := by
  induction front with
  | nil => rfl
  | cons b front ih =>
      obtain ⟨first, others⟩ := List.forall_mem_cons.mp ascii
      rw [List.cons_append, plain_cons first.2.1, ih others]
      exact and_iff_right (List.forall_mem_singleton.mpr first)

theorem plain_of_ascii {text : Bytes} (ascii : Ascii text) : Plain text := by
  have empty : Plain [] := ⟨[], by simp⟩
  rw [← List.append_nil text]
  exact (plain_append ascii []).mpr empty

/-! ## Objects of plain strings -/

theorem structural_alone (mark : UInt8) : Structural mark [mark] :=
  ⟨[], [], by simp [Whitespace], by simp [Whitespace], rfl⟩

def Writable : Json → Prop
  | .number value => ∃ n : ℕ, value = n
  | .string value => Plain value
  | _ => False

theorem value_of_writable {value : Json} (writable : Writable value) :
    Value (write value) value := by
  cases value with
  | number value =>
      obtain ⟨n, rfl⟩ := writable
      exact .number (numberText_decimal n)
  | string value => exact .string (chars_of_plain writable)
  | null | bool | array | object => exact writable.elim

theorem member_of_writable {member : Bytes × Json} (name : Plain member.1)
    (writable : Writable member.2) : Member Value (compactMember member) member := by
  rw [compactMember, ← List.singleton_append, ← List.append_assoc]
  exact .mk (chars_of_plain name) (structural_alone 0x3a) (value_of_writable writable)

theorem separated_of_writable {members : List (Bytes × Json)}
    (names : ∀ member ∈ members, Plain member.1)
    (values : ∀ member ∈ members, Writable member.2) :
    Separated (Member Value) (compactMembers members) members := by
  induction members using compactMembers.induct with
  | case1 => exact .nil
  | case2 member =>
      exact .one (member_of_writable (names member List.mem_cons_self)
        (values member List.mem_cons_self))
  | case3 member next members ih =>
      rw [List.forall_mem_cons] at names values
      rw [compactMembers, ← List.singleton_append, ← List.append_assoc]
      exact .more (member_of_writable names.1 values.1) (structural_alone 0x2c)
        (ih names.2 values.2)

theorem text_compact {members : List (Bytes × Json)} (names : ∀ member ∈ members, Plain member.1)
    (values : ∀ member ∈ members, Writable member.2) : Text (compact members) (.object members) := by
  refine ⟨[], compact members, [], by simp [Whitespace], by simp [Whitespace], ?_, by simp⟩
  exact .object (structural_alone 0x7b) (separated_of_writable names values) (structural_alone 0x7d)

theorem filter_name {fields : List (Bytes × Json)} (distinct : (fields.map Prod.fst).Nodup)
    {field : Bytes × Json} (member : field ∈ fields) :
    fields.filter (·.1 == field.1) = [field] := by
  induction fields with
  | nil => exact absurd member List.not_mem_nil
  | cons head fields ih =>
      obtain ⟨fresh, distinct⟩ := List.nodup_cons.mp distinct
      rcases List.mem_cons.mp member with rfl | member
      · rw [List.filter_cons_of_pos (by simp), List.filter_eq_nil_iff.mpr]
        intro other member same
        exact fresh (List.mem_map.mpr ⟨other, member, beq_iff_eq.mp same⟩)
      · rw [List.filter_cons_of_neg, ih distinct member]
        intro same
        exact fresh (List.mem_map.mpr ⟨field, member, (beq_iff_eq.mp same).symm⟩)

theorem carries_compact {fields : List (Bytes × Json)} (distinct : (fields.map Prod.fst).Nodup)
    (names : ∀ field ∈ fields, Plain field.1) (values : ∀ field ∈ fields, Writable field.2) :
    Carries (compact fields) fields := by
  exact ⟨fields, text_compact names values, fun field => filter_name distinct⟩

theorem plainValue_of_carries {fields : List (Bytes × Json)}
    (distinct : (fields.map Prod.fst).Nodup) (carries : Carries (compact fields) fields)
    {field : Bytes × Json} (member : field ∈ fields) : PlainValue field.2 := by
  obtain ⟨members, reads, found⟩ := carries
  apply plainValue_of_reads distinct.of_map reads _ member
  intro field member
  apply List.mem_of_mem_filter
  rw [found field member]
  exact List.mem_singleton_self field

end SovereignPirtm.Library.Json
