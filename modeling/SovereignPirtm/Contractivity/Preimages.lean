import SovereignPirtm.Contractivity.Generation

/-!
# The texts behind the receipts

The text that a call hashes gives the call back: its kind, its operands, the clock reading and the
counter. The operator name of a binary operation may hold anything, separators and digits included.
-/

namespace SovereignPirtm.Contractivity.ReceiptGenerator
open Library

/-! ## One call -/

theorem preimage_fields (operatorName : Bytes) (operands : List UInt64) (now counter : UInt64) :
    preimage operatorName operands now counter = operatorName ++
      fields (charByte ':') ((operands ++ [now, counter]).map fun x => decimal x.toNat) := by
  have colon : str ":" = [charByte ':'] := by decide
  simp [preimage, fields, colon, List.flatMap_map]

theorem separator_not_mem (values : List UInt64) :
    ∀ field ∈ values.map (fun x => decimal x.toNat), charByte ':' ∉ field := by
  intro field member separator
  obtain ⟨x, -, rfl⟩ := List.mem_map.mp member
  exact absurd (mem_decimal separator).2 (by decide)

theorem preimage_injective {name₁ name₂ : Bytes} {operands₁ operands₂ : List UInt64}
    {now₁ now₂ counter₁ counter₂ : UInt64}
    (same : preimage name₁ operands₁ now₁ counter₁ = preimage name₂ operands₂ now₂ counter₂)
    (count : operands₁.length = operands₂.length) :
    name₁ = name₂ ∧ operands₁ = operands₂ ∧ now₁ = now₂ ∧ counter₁ = counter₂ := by
  rw [preimage_fields, preimage_fields] at same
  obtain ⟨name, values⟩ := append_fields_injective (by simp [count]) (separator_not_mem _)
    (separator_not_mem _) same
  have decimals : Function.Injective fun x : UInt64 => decimal x.toNat :=
    decimal_injective.comp fun _ _ => UInt64.toNat_inj.mp
  obtain ⟨operands, last⟩ := List.append_inj (List.map_injective_iff.mpr decimals values) count
  simp only [List.cons.injEq, and_true] at last
  exact ⟨name, operands, last⟩

theorem preimage_call_injective {call₁ call₂ : Call} {now₁ now₂ counter₁ counter₂ : UInt64}
    (same : preimage call₁.operatorName call₁.operands now₁ counter₁ =
      preimage call₂.operatorName call₂.operands now₂ counter₂) :
    call₁ = call₂ ∧ now₁ = now₂ ∧ counter₁ = counter₂ := by
  have letter : call₁.letter = call₂.letter := by
    have second := congrArg (fun text : Bytes => text[1]?) same
    simpa [preimage_fields, operatorName_second] using second
  cases call₁ with
  | operatorAtom x₁ =>
      cases call₂ with
      | operatorAtom x₂ =>
          obtain ⟨-, operands, stamps⟩ := preimage_injective same rfl
          exact ⟨by rw [List.singleton_inj.mp operands], stamps⟩
      | _ => exact absurd letter (by simp only [Call.letter]; decide)
  | binaryOp kind₁ left₁ right₁ result₁ =>
      cases call₂ with
      | binaryOp kind₂ left₂ right₂ result₂ =>
          obtain ⟨name, operands, stamps⟩ := preimage_injective same rfl
          simp only [Call.operands, List.cons.injEq, and_true] at operands
          obtain ⟨rfl, rfl, rfl⟩ := operands
          exact ⟨by rw [List.append_cancel_left name], stamps⟩
      | _ => exact absurd letter (by simp only [Call.letter]; decide)
  | stratumBoundary x₁ =>
      cases call₂ with
      | stratumBoundary x₂ =>
          obtain ⟨-, operands, stamps⟩ := preimage_injective same rfl
          exact ⟨by rw [List.singleton_inj.mp operands], stamps⟩
      | _ => exact absurd letter (by simp only [Call.letter]; decide)
  | successor x₁ =>
      cases call₂ with
      | successor x₂ =>
          obtain ⟨-, operands, stamps⟩ := preimage_injective same rfl
          exact ⟨by rw [List.singleton_inj.mp operands], stamps⟩
      | _ => exact absurd letter (by simp only [Call.letter]; decide)

/-! ## Runs -/

theorem mem_preimages {g : ReceiptGenerator} {calls : List (Call × UInt64)} {text : Bytes}
    (member : text ∈ preimages g calls) : ∃ call now, ∃ j < calls.length,
      text = preimage (Call.operatorName call) call.operands now (g.counter + UInt64.ofNat j) := by
  induction calls generalizing g with
  | nil => simp [preimages] at member
  | cons entry calls ih =>
      rcases List.mem_cons.mp member with rfl | later
      · exact ⟨entry.1, entry.2, 0, Nat.succ_pos _, by simp⟩
      · obtain ⟨call, now, j, within, rfl⟩ := ih later
        refine ⟨call, now, j + 1, Nat.succ_lt_succ within, ?_⟩
        rw [UInt64.ofNat_add, UInt64.add_comm (UInt64.ofNat j), ← UInt64.add_assoc]
        rfl

theorem preimages_nodup (g : ReceiptGenerator) {calls : List (Call × UInt64)}
    (bounded : calls.length < 2 ^ 64) : (preimages g calls).Nodup := by
  induction calls generalizing g with
  | nil => exact List.nodup_nil
  | cons entry calls ih =>
      rw [List.length_cons] at bounded
      refine List.nodup_cons.mpr ⟨fun repeated => ?_, ih _ (by omega)⟩
      obtain ⟨call, now, j, within, same⟩ := mem_preimages repeated
      have counter := (preimage_call_injective same).2.2
      -- the counter has moved on and not wrapped around yet
      have distance : 1 + UInt64.ofNat j = 0 := by
        rw [UInt64.add_assoc] at counter
        exact UInt64.left_eq_add.mp counter
      have wrapped := congrArg UInt64.toNat distance
      rw [UInt64.toNat_add, UInt64.toNat_ofNat_of_lt' (by simp [UInt64.size]; omega)] at wrapped
      change (1 + j) % 2 ^ 64 = 0 at wrapped
      omega

/-- The text that a call hashes determines the call, and the texts of a run are pairwise different.
With `id` for the hash function the receipts show the texts themselves. -/
theorem texts_unambiguous :
    (∀ (g₁ g₂ : ReceiptGenerator) (call₁ call₂ : Call) (now₁ now₂ : UInt64),
      (g₁.generate id call₁ now₁).1.hash = (g₂.generate id call₂ now₂).1.hash →
        call₁ = call₂ ∧ now₁ = now₂ ∧ g₁.counter = g₂.counter) ∧
    ∀ (g : ReceiptGenerator) (calls : List (Call × UInt64)), calls.length < 2 ^ 64 →
      ((run id g calls).map ContractivityReceipt.hash).Nodup := by
  constructor
  · intro g₁ g₂ call₁ call₂ now₁ now₂ same
    rw [(generate_spec id g₁ call₁ now₁).1, (generate_spec id g₂ call₂ now₂).1] at same
    exact preimage_call_injective same
  · intro g calls bounded
    rw [run_hashes, List.map_id]
    exact preimages_nodup g bounded

theorem texts_unambiguous_binary :
    let call := Call.binaryOp (str "add:1") 2 3 5
    (call = call ∧ (7 : UInt64) = 7 ∧ new.counter = new.counter) ∧
      ((run id new [(call, 7), (call, 7)]).map ContractivityReceipt.hash).Nodup :=
  ⟨texts_unambiguous.1 new new _ _ 7 7 rfl, texts_unambiguous.2 new _ (by decide)⟩

end SovereignPirtm.Contractivity.ReceiptGenerator
