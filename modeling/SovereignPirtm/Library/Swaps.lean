import Mathlib.GroupTheory.Perm.Cycle.Factors
import Mathlib.Tactic

/-!
# Chains of swaps

The product of the swaps that exchange each point of a list with its image under a permutation. On a
cycle of the permutation that product has one swap too many: it is never the permutation itself, nor
its inverse, unless there is nothing to permute. In the order of the numbers it carries each point
along a descending run of its cycle.
-/

namespace SovereignPirtm.Library
open Equiv Equiv.Perm
variable {α : Type*} [DecidableEq α]

def swapChain (σ : Perm α) (points : List α) : Perm α :=
  (points.map fun i => swap i (σ i)).prod

theorem swapChain_cons (σ : Perm α) (i : α) (points : List α) :
    swapChain σ (i :: points) = swap i (σ i) * swapChain σ points := by
  rw [swapChain, List.map_cons, List.prod_cons, swapChain]

theorem swapChain_one (points : List α) : swapChain 1 points = 1 := by
  induction points with
  | nil => rfl
  | cons i points ih =>
      rw [swapChain_cons, ih, one_apply, swap_self, mul_one]
      rfl

theorem foldl_swap (σ : Perm α) (points : List α) {β : Type*} (w : α → β) :
    points.foldl (fun w i => w ∘ swap i (σ i)) w = w ∘ swapChain σ points := by
  induction points generalizing w with
  | nil => rfl
  | cons i points ih => rw [List.foldl_cons, ih, swapChain_cons, coe_mul, Function.comp_assoc]

section Closed
variable {σ : Perm α} {s : α → Prop} (closed : ∀ x, s (σ x) ↔ s x)
include closed

theorem swap_closed {i x : α} (inside : s i) (point : s x) : s (swap i (σ i) x) := by
  rw [swap_apply_def]
  split_ifs
  · exact (closed i).mpr inside
  · exact inside
  · exact point

theorem swap_outside {i x : α} (apart : ¬ (s i ↔ s x)) : swap i (σ i) x = x := by
  apply swap_apply_of_ne_of_ne
  · rintro rfl
    exact apart Iff.rfl
  · rintro rfl
    exact apart (closed i).symm

variable [DecidablePred s]

theorem swapChain_filter_of_mem (points : List α) {x : α} (point : s x) :
    swapChain σ (points.filter s) x = swapChain σ points x ∧ s (swapChain σ points x) := by
  induction points with
  | nil => exact ⟨rfl, point⟩
  | cons i points ih =>
      obtain ⟨same, inside⟩ := ih
      rw [swapChain_cons, mul_apply]
      by_cases member : s i
      · rw [List.filter_cons_of_pos (by simpa using member), swapChain_cons, mul_apply, same]
        exact ⟨rfl, swap_closed closed member inside⟩
      · rw [List.filter_cons_of_neg (by simpa using member), same,
          swap_outside closed (by simp [member, inside])]
        exact ⟨rfl, inside⟩

theorem swapChain_filter_of_not_mem (points : List α) {x : α} (point : ¬ s x) :
    swapChain σ (points.filter s) x = x := by
  induction points with
  | nil => rfl
  | cons i points ih =>
      by_cases member : s i
      · rw [List.filter_cons_of_pos (by simpa using member), swapChain_cons, mul_apply, ih,
          swap_outside closed (by simp [member, point])]
      · rw [List.filter_cons_of_neg (by simpa using member), ih]

end Closed

theorem sign_swapChain [Fintype α] {σ : Perm α} {points : List α} (moved : ∀ i ∈ points, σ i ≠ i) :
    sign (swapChain σ points) = (-1) ^ points.length := by
  rw [swapChain, sign_prod_list_swap, List.length_map]
  intro g member
  obtain ⟨i, inside, rfl⟩ := List.mem_map.mp member
  exact ⟨i, σ i, (moved i inside).symm, rfl⟩

section Finite
variable [Fintype α] {σ τ : Perm α} {points : List α}

theorem swapChain_ne (nodup : points.Nodup) (complete : ∀ x, x ∈ points) {x : α} (moved : τ x ≠ x)
    (cycles : ∀ y, τ.SameCycle x y ↔ σ.SameCycle x y) (fixed : ∀ y, σ y = y ↔ τ y = y) :
    swapChain σ points ≠ τ := by
  intro same
  have closed (y : α) : σ.SameCycle x (σ y) ↔ σ.SameCycle x y := sameCycle_apply_right
  have onCycle : swapChain σ (points.filter (σ.SameCycle x)) = τ.cycleOf x := by
    ext y
    by_cases inside : σ.SameCycle x y
    · rw [(swapChain_filter_of_mem closed points inside).1, same,
        ((cycles y).mpr inside).cycleOf_apply]
    · rw [swapChain_filter_of_not_mem closed points inside,
        cycleOf_apply_of_not_sameCycle (mt (cycles y).mp inside)]
  have chain : sign (τ.cycleOf x) = (-1) ^ (points.filter (σ.SameCycle x)).length := by
    rw [← onCycle]
    apply sign_swapChain
    intro i member still
    have inside : τ.SameCycle x i := (cycles i).mpr (by simpa using (List.mem_filter.mp member).2)
    exact moved (inside.apply_eq_self_iff.mpr ((fixed i).mp still))
  have count : (points.filter (σ.SameCycle x)).length = (τ.cycleOf x).support.card := by
    rw [← List.toFinset_card_of_nodup (nodup.filter _)]
    congr 1
    ext y
    rw [List.mem_toFinset, List.mem_filter, mem_support_cycleOf_iff' moved, cycles]
    simp [complete y]
  rw [(isCycle_cycleOf τ moved).sign, count] at chain
  exact neg_units_ne_self _ chain

/-- On all the points, the chain of swaps realises the permutation, or its inverse, only for the
permutation that moves nothing. -/
theorem swapChain_eq_self_iff (nodup : points.Nodup) (complete : ∀ x, x ∈ points) :
    swapChain σ points = σ ↔ σ = 1 := by
  constructor
  · intro same
    by_contra other
    obtain ⟨x, moved⟩ := not_forall.mp (mt Equiv.ext other)
    exact swapChain_ne nodup complete moved (fun _ => Iff.rfl) (fun _ => Iff.rfl) same
  · rintro rfl
    exact swapChain_one points

theorem swapChain_eq_inv_iff (nodup : points.Nodup) (complete : ∀ x, x ∈ points) :
    swapChain σ points = σ⁻¹ ↔ σ = 1 := by
  constructor
  · intro same
    by_contra other
    obtain ⟨x, moved⟩ := not_forall.mp (mt Equiv.ext (inv_eq_one.not.mpr other))
    exact swapChain_ne nodup complete moved (fun _ => sameCycle_inv)
      (fun y => by rw [inv_eq_iff_eq, eq_comm]) same
  · rintro rfl
    rw [swapChain_one, inv_one]

end Finite

/-! ## Descending runs -/

/-- Where the descending run from `q` ends. -/
def runEnd (next : ℕ → ℕ) (q : ℕ) : ℕ :=
  if next q < q then runEnd next (next q) else q

theorem runEnd_of_le {next : ℕ → ℕ} {q : ℕ} (stays : q ≤ next q) : runEnd next q = q := by
  rw [runEnd, if_neg stays.not_gt]

/-- The run goes on from a point that lies above its source, and otherwise goes back from the
source. -/
def alongRun (next back : ℕ → ℕ) (q : ℕ) : ℕ :=
  if back q < q then next (runEnd next q) else runEnd back (back q)

section Runs
variable (σ : Perm ℕ)

theorem swapChain_range_succ (k : ℕ) :
    swapChain σ (List.range (k+1)) = swapChain σ (List.range k) * swap k (σ k) := by
  simp [swapChain, List.range_succ]

theorem swapChain_range_of_le {k q : ℕ} (outside : k ≤ q) (source : k ≤ σ.symm q) :
    swapChain σ (List.range k) q = q := by
  induction k with
  | zero => rfl
  | succ k ih =>
      rw [swapChain_range_succ, mul_apply, swap_apply_of_ne_of_ne, ih (by omega) (by omega)]
      · omega
      · rintro rfl
        rw [symm_apply_apply] at source
        omega

theorem swapChain_range_above {k q : ℕ} (inside : q < k) (above : σ.symm q < q ∨ k ≤ σ.symm q) :
    swapChain σ (List.range k) q = σ (runEnd σ q) := by
  induction k generalizing q with
  | zero => omega
  | succ k ih =>
      rw [swapChain_range_succ, mul_apply]
      rcases Nat.lt_succ_iff_lt_or_eq.mp inside with below | rfl
      · rw [swap_apply_of_ne_of_ne, ih below (by omega)]
        · omega
        · rintro rfl
          rw [symm_apply_apply] at above
          omega
      · have source : σ.symm (σ q) = q := symm_apply_apply σ q
        rw [swap_apply_left, runEnd]
        split_ifs with descends
        · exact ih descends (.inr source.ge)
        · exact swapChain_range_of_le σ (not_lt.mp descends) source.ge

theorem swapChain_range_below {k q : ℕ} (inside : σ.symm q < k) (below : q ≤ σ.symm q ∨ k ≤ q) :
    swapChain σ (List.range k) q = runEnd σ.symm (σ.symm q) := by
  induction k generalizing q with
  | zero => omega
  | succ k ih =>
      rw [swapChain_range_succ, mul_apply]
      rcases Nat.lt_succ_iff_lt_or_eq.mp inside with source | source
      · rw [swap_apply_of_ne_of_ne, ih source (by omega)]
        · omega
        · rintro rfl
          rw [symm_apply_apply] at source
          omega
      · obtain rfl : q = σ k := σ.symm_apply_eq.mp source
        rw [swap_apply_right, source, runEnd]
        split_ifs with descends
        · exact ih descends (.inr le_rfl)
        · exact swapChain_range_of_le σ le_rfl (not_lt.mp descends)

theorem swapChain_range_apply {k : ℕ} (fixed : ∀ q, k ≤ q → σ q = q) (q : ℕ) :
    swapChain σ (List.range k) q = alongRun σ σ.symm q := by
  by_cases inside : q < k
  · have source : σ.symm q < k := by
      by_contra beyond
      have same := fixed _ (not_lt.mp beyond)
      rw [apply_symm_apply] at same
      omega
    rw [alongRun]
    split_ifs with above
    · exact swapChain_range_above σ inside (.inl above)
    · exact swapChain_range_below σ source (.inl (not_lt.mp above))
  · have source : σ.symm q = q := σ.symm_apply_eq.mpr (fixed q (not_lt.mp inside)).symm
    rw [swapChain_range_of_le σ (not_lt.mp inside) (by omega), alongRun, source, if_neg (lt_irrefl q),
      runEnd_of_le source.ge]

end Runs
end SovereignPirtm.Library
