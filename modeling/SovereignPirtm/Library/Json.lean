import SovereignPirtm.Library.Text

/-!
# JSON texts

The grammar of RFC 8259 as a relation between a byte string, which is UTF-8, and what it stands
for. A string stands for the UTF-8 bytes of its characters.
-/

namespace SovereignPirtm.Library

inductive Json where
  | null
  | bool (value : Bool)
  | number (value : ℚ)
  | string (value : Bytes)
  | array (items : List Json)
  | object (members : List (Bytes × Json))

namespace Json

/-! ## Strings -/

/-- Not a control character, a quotation mark or a backslash. -/
def Unescaped (c : Char) : Prop := 0x20 ≤ c.toNat ∧ c.toNat ≠ 0x22 ∧ c.toNat ≠ 0x5c

def escapes : List (UInt8 × UInt8) :=
  [(0x22, 0x22), (0x5c, 0x5c), (0x2f, 0x2f), (0x62, 0x08), (0x66, 0x0c), (0x6e, 0x0a),
    (0x72, 0x0d), (0x74, 0x09)]

def hexDigit (b : UInt8) : Option ℕ :=
  if 0x30 ≤ b ∧ b ≤ 0x39 then some (b.toNat - 0x30)
  else if 0x41 ≤ b ∧ b ≤ 0x46 then some (b.toNat - 0x41 + 10)
  else if 0x61 ≤ b ∧ b ≤ 0x66 then some (b.toNat - 0x61 + 10)
  else none

/-- The code unit that `\u` and the four digits stand for. -/
def codeUnit (a b c d : UInt8) : Option ℕ := do
  return (((← hexDigit a) * 16 + (← hexDigit b)) * 16 + (← hexDigit c)) * 16 + (← hexDigit d)

def High (unit : ℕ) : Prop := 0xd800 ≤ unit ∧ unit < 0xdc00

def Low (unit : ℕ) : Prop := 0xdc00 ≤ unit ∧ unit < 0xe000

inductive Chars : Bytes → Bytes → Prop
  | nil : Chars [] []
  | plain {c text value} : Unescaped c → Chars text value →
      Chars (String.utf8EncodeChar c ++ text) (String.utf8EncodeChar c ++ value)
  | escape {letter byte text value} : (letter, byte) ∈ escapes → Chars text value →
      Chars (0x5c :: letter :: text) (byte :: value)
  | unit {a b c d unit text value} : codeUnit a b c d = some unit → ¬ High unit → ¬ Low unit →
      Chars text value →
      Chars (0x5c :: 0x75 :: a :: b :: c :: d :: text)
        (String.utf8EncodeChar (Char.ofNat unit) ++ value)
  | pair {a b c d e f g h high low text value} : codeUnit a b c d = some high →
      codeUnit e f g h = some low → High high → Low low → Chars text value →
      Chars (0x5c :: 0x75 :: a :: b :: c :: d :: 0x5c :: 0x75 :: e :: f :: g :: h :: text)
        (String.utf8EncodeChar (Char.ofNat (0x10000 + (high - 0xd800) * 0x400 + (low - 0xdc00))) ++
          value)
  -- a surrogate without its other half has no meaning of its own: the replacement character
  | unpaired {a b c d unit text value} : codeUnit a b c d = some unit → High unit ∨ Low unit →
      Chars text value →
      Chars (0x5c :: 0x75 :: a :: b :: c :: d :: text)
        (String.utf8EncodeChar (Char.ofNat 0xfffd) ++ value)

def quoted (text : Bytes) : Bytes := 0x22 :: text ++ [0x22]

/-! ## Numbers -/

def Digit (b : UInt8) : Prop := 0x30 ≤ b.toNat ∧ b.toNat ≤ 0x39

def Digits (text : Bytes) : Prop := text ≠ [] ∧ ∀ b ∈ text, Digit b

def digitsValue (text : Bytes) : ℕ := text.foldl (fun value b => 10 * value + (b.toNat - 0x30)) 0

inductive Sign : Bytes → ℤ → Prop
  | none : Sign [] 1
  | minus : Sign [0x2d] (-1)

/-- No leading zeros. -/
def IntText (text : Bytes) : Prop :=
  text = [0x30] ∨ ∃ first rest, text = first :: rest ∧ Digit first ∧ first ≠ 0x30 ∧
    ∀ b ∈ rest, Digit b

inductive Fraction : Bytes → Bytes → Prop
  | none : Fraction [] []
  | digits {digits} : Digits digits → Fraction (0x2e :: digits) digits

inductive Exponent : Bytes → ℤ → Prop
  | none : Exponent [] 0
  | unsigned {e digits} : e ∈ [0x65, 0x45] → Digits digits →
      Exponent (e :: digits) (digitsValue digits)
  | plus {e digits} : e ∈ [0x65, 0x45] → Digits digits →
      Exponent (e :: 0x2b :: digits) (digitsValue digits)
  | minus {e digits} : e ∈ [0x65, 0x45] → Digits digits →
      Exponent (e :: 0x2d :: digits) (-digitsValue digits)

inductive NumberText : Bytes → ℚ → Prop
  | mk {sign int fraction exponent s digits e} : Sign sign s → IntText int →
      Fraction fraction digits → Exponent exponent e →
      NumberText (sign ++ int ++ fraction ++ exponent)
        (s * digitsValue (int ++ digits) * 10 ^ (e - digits.length : ℤ))

/-! ## Values -/

def Whitespace (text : Bytes) : Prop := ∀ b ∈ text, b ∈ [0x20, 0x09, 0x0a, 0x0d]

/-- One of the six structural characters, with the white space around it. -/
def Structural (mark : UInt8) (text : Bytes) : Prop :=
  ∃ before after, Whitespace before ∧ Whitespace after ∧ text = before ++ mark :: after

inductive Separated {α : Type} (Item : Bytes → α → Prop) : Bytes → List α → Prop
  | nil : Separated Item [] []
  | one {text a} : Item text a → Separated Item text [a]
  | more {text comma texts a b items} : Item text a → Structural 0x2c comma →
      Separated Item texts (b :: items) → Separated Item (text ++ comma ++ texts) (a :: b :: items)

inductive Member (Item : Bytes → Json → Prop) : Bytes → Bytes × Json → Prop
  | mk {inside name colon text value} : Chars inside name → Structural 0x3a colon →
      Item text value → Member Item (quoted inside ++ colon ++ text) (name, value)

inductive Value : Bytes → Json → Prop
  | null : Value (str "null") .null
  | true : Value (str "true") (.bool true)
  | false : Value (str "false") (.bool false)
  | number {text value} : NumberText text value → Value text (.number value)
  | string {inside value} : Chars inside value → Value (quoted inside) (.string value)
  | array {start text stop items} : Structural 0x5b start → Separated Value text items →
      Structural 0x5d stop → Value (start ++ text ++ stop) (.array items)
  | object {start text stop members} : Structural 0x7b start →
      Separated (Member Value) text members → Structural 0x7d stop →
      Value (start ++ text ++ stop) (.object members)

/-- A JSON text: one value with white space around it. -/
def Text (text : Bytes) (value : Json) : Prop :=
  ∃ before inside after, Whitespace before ∧ Whitespace after ∧ Value inside value ∧
    text = before ++ inside ++ after

/-- The text is one object, with each field once under its name. -/
def Carries (text : Bytes) (fields : List (Bytes × Json)) : Prop :=
  ∃ members, Text text (.object members) ∧
    ∀ field ∈ fields, members.filter (·.1 == field.1) = [field]

end Json
end SovereignPirtm.Library
