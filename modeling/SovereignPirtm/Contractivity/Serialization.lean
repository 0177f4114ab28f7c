import SovereignPirtm.Library.CompactJson
import SovereignPirtm.Contractivity.Generation

/-!
# Receipts as JSON

`to_json` writes every string as it is, so its text is JSON when no string needs an escape.
`from_json` does not look at its text.
-/

namespace SovereignPirtm.Contractivity
open Library

namespace ContractivityReceipt

def toJson (r : ContractivityReceipt) : Bytes :=
  str "\x7b\"prime_index\":" ++ decimal r.primeIndex.toNat ++
    str ",\"hash\":\"" ++ r.hash ++ str "\"" ++
    str ",\"timestamp_ns\":" ++ decimal r.timestampNs.toNat ++
    str ",\"operator\":\"" ++ r.operatorName ++ str "\"" ++
    str ",\"merkle_root\":\"" ++ r.merkleRoot ++ str "\"\x7d"

def fromJson (_json : Bytes) : ContractivityReceipt :=
  { primeIndex := 0, hash := str "", timestampNs := 0, operatorName := str "",
    merkleRoot := str "" }

/-! ## Writing -/

/-- What the text is to carry. -/
def members (r : ContractivityReceipt) : List (Bytes × Json) :=
  [(str "prime_index", .number r.primeIndex.toNat), (str "hash", .string r.hash),
    (str "timestamp_ns", .number r.timestampNs.toNat),
    (str "operator", .string r.operatorName), (str "merkle_root", .string r.merkleRoot)]

theorem toJson_eq (r : ContractivityReceipt) : r.toJson = Json.compact r.members := by
  have prime : str "\x7b\"prime_index\":" = 0x7b :: 0x22 :: str "prime_index" ++ [0x22, 0x3a] := by
    decide
  have hash : str ",\"hash\":\"" = 0x2c :: 0x22 :: str "hash" ++ [0x22, 0x3a, 0x22] := by decide
  have time : str ",\"timestamp_ns\":" = 0x2c :: 0x22 :: str "timestamp_ns" ++ [0x22, 0x3a] := by
    decide
  have operator : str ",\"operator\":\"" = 0x2c :: 0x22 :: str "operator" ++ [0x22, 0x3a, 0x22] := by
    decide
  have root : str ",\"merkle_root\":\"" =
      0x2c :: 0x22 :: str "merkle_root" ++ [0x22, 0x3a, 0x22] := by decide
  have close : str "\"\x7d" = [0x22, 0x7d] := by decide
  have quote : str "\"" = [0x22] := by decide
  simp [toJson, members, Json.compact, Json.compactMembers, Json.compactMember, Json.write,
    Json.quoted, prime, hash, time, operator, root, close, quote]

theorem carries_toJson (r : ContractivityReceipt) :
    Json.Carries r.toJson r.members ↔
      Json.Plain r.hash ∧ Json.Plain r.operatorName ∧ Json.Plain r.merkleRoot := by
  have distinct : (r.members.map Prod.fst).Nodup := by
    simp only [members, List.map_cons, List.map_nil]
    decide
  rw [toJson_eq]
  constructor
  · intro carries
    have plain : ∀ field ∈ r.members, Json.PlainValue field.2 :=
      fun _ member => Json.plainValue_of_carries distinct carries member
    simp only [members, List.forall_mem_cons] at plain
    exact ⟨plain.2.1, plain.2.2.2.1, plain.2.2.2.2.1⟩
  · rintro ⟨hash, operator, root⟩
    apply Json.carries_compact distinct
    · have names : ∀ name ∈ r.members.map Prod.fst, Json.Ascii name := by
        simp only [members, List.map_cons, List.map_nil]
        decide
      exact fun field member => Json.plain_of_ascii (names _ (List.mem_map_of_mem member))
    · simp only [members, List.forall_mem_cons]
      exact ⟨⟨_, rfl⟩, hash, ⟨_, rfl⟩, operator, root, by simp⟩

end ContractivityReceipt

/-! ## Receipts of the generator -/

namespace ReceiptGenerator

theorem plain_sha256Hex (text : Bytes) : Json.Plain (sha256Hex text) := by
  have digits : ∀ d < 16, Json.Ascii [charByte d.digitChar] := by decide
  apply Json.plain_of_ascii
  intro b member
  obtain ⟨d, small, rfl⟩ := mem_sha256Hex member
  exact digits d small _ (List.mem_singleton_self _)

/-- The kind of a binary operation needs no escape; the other operator names are fixed. -/
def Call.Plain : Call → Prop
  | .binaryOp opKind _ _ _ => Json.Plain opKind
  | _ => True

theorem plain_operatorName (call : Call) : Json.Plain call.operatorName ↔ call.Plain := by
  have atom : Json.Ascii (str "operator_atom") := by decide
  have boundary : Json.Ascii (str "stratum_boundary") := by decide
  have next : Json.Ascii (str "successor") := by decide
  cases call with
  | operatorAtom primeIndex => exact iff_of_true (Json.plain_of_ascii atom) trivial
  | binaryOp opKind left right result => exact Json.plain_append (by decide) opKind
  | stratumBoundary innerPrime => exact iff_of_true (Json.plain_of_ascii boundary) trivial
  | successor innerPrime => exact iff_of_true (Json.plain_of_ascii next) trivial

theorem carries_generate_iff (g : ReceiptGenerator) (call : Call) (now : UInt64) :
    Json.Carries (g.generate sha256Hex call now).1.toJson (g.generate sha256Hex call now).1.members ↔
      call.Plain := by
  obtain ⟨hash, root, -⟩ := generate_spec sha256Hex g call now
  have operator : (g.generate sha256Hex call now).1.operatorName = call.operatorName := by
    cases call <;> rfl
  rw [ContractivityReceipt.carries_toJson, hash, root, operator, plain_operatorName]
  exact ⟨fun plain => plain.2.1, fun plain => ⟨plain_sha256Hex _, plain, plain_sha256Hex _⟩⟩

theorem not_carries_quote :
    ¬ Json.Carries (new.generateBinaryOp sha256Hex (str "\"") 2 3 6 0).1.toJson
      (new.generateBinaryOp sha256Hex (str "\"") 2 3 6 0).1.members := by
  rw [ContractivityReceipt.carries_toJson]
  rintro ⟨-, operator, -⟩
  have kind : Json.Plain (str "\"") := (Json.plain_append (by decide) _).mp operator
  exact absurd ((Json.plain_cons (by decide) []).mp kind).1 (by decide)

end ReceiptGenerator

/-! ## Reading -/

namespace ContractivityReceipt

theorem fromJson_toJson_iff (r : ContractivityReceipt) :
    fromJson r.toJson = r ↔
      r.primeIndex = 0 ∧ r.hash = [] ∧ r.timestampNs = 0 ∧ r.operatorName = [] ∧
        r.merkleRoot = [] := by
  have blank : fromJson r.toJson = ⟨0, [], 0, [], []⟩ := rfl
  rw [blank]
  cases r
  simp [eq_comm]

theorem fromJson_toJson_ne :
    fromJson (ReceiptGenerator.new.generateOperatorAtom sha256Hex 2 0).1.toJson ≠
      (ReceiptGenerator.new.generateOperatorAtom sha256Hex 2 0).1 := by
  intro same
  exact absurd (congrArg primeIndex same) (by decide)

end ContractivityReceipt
end SovereignPirtm.Contractivity
