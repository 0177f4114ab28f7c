import Mathlib.Order.UpperLower.Basic

/-!
# Cascades of tests

Tests are tried in order, each with a level, and the first one that holds gives its level. When
every test keeps holding as its argument grows and the levels only fall along the list, the level
reported never falls as the argument grows.
-/

namespace SovereignPirtm.Library
noncomputable section
open Classical

variable {α β : Type*}

def cascade (tests : List (Set α × β)) (quiet : β) (a : α) : β :=
  match tests with
  | [] => quiet
  | test :: tests => if a ∈ test.1 then test.2 else cascade tests quiet a

def levels (tests : List (Set α × β)) (quiet : β) : List β := tests.map Prod.snd ++ [quiet]

theorem cascade_mem_levels (tests : List (Set α × β)) (quiet : β) (a : α) :
    cascade tests quiet a ∈ levels tests quiet := by
  induction tests with
  | nil => simp [cascade, levels]
  | cons test tests ih =>
      rw [cascade]
      split
      · simp [levels]
      · exact List.mem_cons_of_mem test.2 ih

theorem cascade_mono [Preorder α] [Preorder β] {tests : List (Set α × β)} {quiet : β}
    (upper : ∀ test ∈ tests, IsUpperSet test.1)
    (falling : (levels tests quiet).Pairwise (· ≥ ·)) : Monotone (cascade tests quiet) := by
  induction tests with
  | nil => exact fun _ _ _ => le_rfl
  | cons test tests ih =>
      rw [List.forall_mem_cons] at upper
      obtain ⟨highest, falling⟩ := List.pairwise_cons.mp falling
      intro a b le
      rw [cascade, cascade]
      by_cases first : a ∈ test.1
      · have second : b ∈ test.1 := upper.1 le first
        rw [if_pos first, if_pos second]
      · rw [if_neg first]
        split
        · exact highest _ (cascade_mem_levels tests quiet a)
        · exact ih upper.2 falling le

end
end SovereignPirtm.Library
