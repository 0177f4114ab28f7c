import Mathlib.Algebra.BigOperators.Group.List.Lemmas
import Mathlib.Tactic

/-!
# Commuting involutions

A product of elements that commute and are their own inverses depends on no more than which of them
occur an odd number of times.
-/

namespace SovereignPirtm.Library
variable {ι M : Type*} [DecidableEq ι] [Monoid M] {f : ι → M} {P : ι → Prop}
  (commute : ∀ i j, P i → P j → Commute (f i) (f j)) (square : ∀ i, P i → f i * f i = 1)
include commute square

theorem prod_eq_one_of_even {l : List ι} (inside : ∀ i ∈ l, P i) (even : ∀ i, Even (l.count i)) :
    (l.map f).prod = 1 := by
  induction size : l.length using Nat.strong_induction_on generalizing l with
  | h n ih =>
      cases l with
      | nil => rfl
      | cons i l =>
          have again : i ∈ l := by
            have pair := even i
            rw [List.count_cons_self, Nat.even_add_one, Nat.not_even_iff_odd] at pair
            exact List.count_pos_iff.mp pair.pos
          have regrouped : (i :: l).Perm (i :: i :: l.erase i) := (List.perm_cons_erase again).cons i
          have pairwise : ((i :: l).map f).Pairwise Commute := by
            rw [List.pairwise_map]
            exact List.pairwise_of_forall_mem_list fun j left k right =>
              commute j k (inside j left) (inside k right)
          have rest : ((l.erase i).map f).prod = 1 := by
            refine ih _ ?_ (fun j member => ?_) (fun j => ?_) rfl
            · have shorter := List.length_erase_of_mem again
              have some_left := List.length_pos_of_mem again
              rw [List.length_cons] at size
              omega
            · exact inside j (List.mem_cons_of_mem _ (List.mem_of_mem_erase member))
            · have pair := even j
              rw [regrouped.count_eq] at pair
              by_cases same : i = j
              · subst same
                rwa [List.count_cons_self, List.count_cons_self, Nat.even_add_one,
                  Nat.even_add_one, not_not] at pair
              · rwa [List.count_cons_of_ne same, List.count_cons_of_ne same] at pair
          rw [(regrouped.map f).prod_eq' pairwise, List.map_cons, List.map_cons, List.prod_cons,
            List.prod_cons, rest, mul_one, square i (inside i List.mem_cons_self)]

theorem prod_eq_of_parity {l l' : List ι} (inside : ∀ i ∈ l, P i) (inside' : ∀ i ∈ l', P i)
    (parities : ∀ i, l.count i % 2 = l'.count i % 2) : (l.map f).prod = (l'.map f).prod := by
  have cancels {k : List ι} (within : ∀ i ∈ k, P i) (same : ∀ i, k.count i % 2 = l'.count i % 2) :
      (k.map f).prod * (l'.map f).prod = 1 := by
    rw [← List.prod_append, ← List.map_append]
    refine prod_eq_one_of_even commute square (List.forall_mem_append.mpr ⟨within, inside'⟩) ?_
    intro i
    have both := same i
    rw [List.count_append, Nat.even_iff]
    omega
  calc (l.map f).prod
      = (l.map f).prod * ((l'.map f).prod * (l'.map f).prod) := by
        rw [cancels inside' fun _ => rfl, mul_one]
    _ = (l'.map f).prod := by rw [← mul_assoc, cancels inside parities, one_mul]

end SovereignPirtm.Library
