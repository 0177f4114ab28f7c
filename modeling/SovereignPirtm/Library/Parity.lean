import Mathlib.Data.Finset.SymmDiff
import Mathlib.Tactic

/-!
# Parities of bits

The exclusive or of the bits at the positions of a finite set.
-/

namespace SovereignPirtm.Library
open scoped symmDiff
variable {α : Type*}

def parity (bits : α → Bool) (s : Finset α) : Bool := decide (Odd (s.filter fun x => bits x).card)

@[simp] theorem parity_empty (bits : α → Bool) : parity bits ∅ = false := by simp [parity]

@[simp] theorem parity_singleton (bits : α → Bool) (x : α) : parity bits {x} = bits x := by
  cases bit : bits x <;> simp [parity, Finset.filter_singleton, bit]

@[simp] theorem parity_false (s : Finset α) : parity (fun _ => false) s = false := by
  simp [parity]

theorem parity_map {β : Type*} (bits : β → Bool) (e : α ↪ β) (s : Finset α) :
    parity bits (s.map e) = parity (bits ∘ e) s := by
  rw [parity, parity, Finset.filter_map, Finset.card_map]
  rfl

variable [DecidableEq α]

theorem card_symmDiff_add (s t : Finset α) :
    (s ∆ t).card + 2 * (s ∩ t).card = s.card + t.card := by
  have left := Finset.card_sdiff_add_card_inter s t
  have right := Finset.card_sdiff_add_card_inter t s
  have apart : Disjoint (s \ t) (t \ s) := disjoint_sdiff_sdiff
  rw [Finset.inter_comm] at right
  rw [Finset.symmDiff_def, Finset.card_union_of_disjoint apart]
  omega

theorem odd_card_symmDiff (s t : Finset α) :
    decide (Odd (s ∆ t).card) = (decide (Odd s.card) ^^ decide (Odd t.card)) := by
  have count := card_symmDiff_add s t
  rw [Bool.eq_iff_iff]
  simp only [Nat.odd_iff, decide_eq_true_iff, bne_iff_ne, ne_eq, decide_eq_decide]
  omega

@[simp] theorem parity_symmDiff (bits : α → Bool) (s t : Finset α) :
    parity bits (s ∆ t) = (parity bits s ^^ parity bits t) := by
  have split : (s ∆ t).filter (fun x => bits x) =
      s.filter (fun x => bits x) ∆ t.filter (fun x => bits x) := by
    ext x
    simp only [Finset.mem_filter, Finset.mem_symmDiff]
    tauto
  rw [parity, split, odd_card_symmDiff, parity, parity]

theorem parity_xor (bits more : α → Bool) (s : Finset α) :
    parity (fun x => bits x ^^ more x) s = (parity bits s ^^ parity more s) := by
  have split : s.filter (fun x => bits x ^^ more x) =
      s.filter (fun x => bits x) ∆ s.filter (fun x => more x) := by
    ext x
    simp only [Finset.mem_filter, Finset.mem_symmDiff, bne_iff_ne, ne_eq]
    cases bits x <;> cases more x <;> simp
  rw [parity, split, odd_card_symmDiff, parity, parity]

@[simp] theorem parity_decide_eq (x : α) (s : Finset α) :
    parity (fun y => decide (y = x)) s = decide (x ∈ s) := by
  have found : s.filter (fun y => decide (y = x) = true) = s.filter (· = x) := by
    simp
  rw [parity, found, Finset.filter_eq']
  by_cases member : x ∈ s
  · simp [member]
  · simp [member]

end SovereignPirtm.Library
