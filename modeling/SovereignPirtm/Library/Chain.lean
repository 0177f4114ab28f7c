import Mathlib.Tactic

/-!
# Roots of growing chains

The running commitment of a chain: the first leaf, into which every later leaf is linked.
-/

namespace SovereignPirtm.Library
variable {α : Type*}

def chainRoot (empty : α) (link : α → α → α) : List α → α
  | [] => empty
  | leaf :: leaves => leaves.foldl link leaf

theorem chainRoot_concat {empty : α} {link : α → α → α} {leaves : List α} (some : leaves ≠ [])
    (leaf : α) :
    chainRoot empty link (leaves ++ [leaf]) = link (chainRoot empty link leaves) leaf := by
  cases leaves with
  | nil => contradiction
  | cons first rest => simp [chainRoot]

theorem chainRoot_take_succ (empty : α) (link : α → α → α) {leaves : List α} {k : Nat}
    (positive : 0 < k) (within : k < leaves.length) :
    chainRoot empty link (leaves.take (k+1)) =
      link (chainRoot empty link (leaves.take k)) leaves[k] := by
  rw [List.take_succ_eq_append_getElem within, chainRoot_concat]
  intro nothing
  have size := congrArg List.length nothing
  rw [List.length_take, List.length_nil] at size
  omega

theorem chainRoot_of {empty : α} {link : α → α → α} {P : α → Prop} {leaves : List α}
    (some : leaves ≠ []) (leaf : ∀ x ∈ leaves, P x) (linked : ∀ root x, P (link root x)) :
    P (chainRoot empty link leaves) := by
  induction leaves using List.reverseRecOn with
  | nil => contradiction
  | append_singleton front last ih =>
      by_cases nothing : front = []
      · subst nothing
        exact leaf last (by simp)
      · rw [chainRoot_concat nothing]
        exact linked _ _

/-! ## What a root binds -/

section Binding
variable {β : Type*} (empty : α) (hash : β → α) (pair : α → α → β)

def hashRoot : List α → α := chainRoot empty fun root leaf => hash (pair root leaf)

def rootText (leaves : List α) (k : Nat) (within : k < leaves.length) : β :=
  pair (hashRoot empty hash pair (leaves.take k)) leaves[k]

variable {empty hash pair} {P : α → Prop}

theorem hashRoot_concat {front : List α} (nonempty : front ≠ []) (leaf : α) :
    hashRoot empty hash pair (front ++ [leaf]) =
      hash (rootText empty hash pair (front ++ [leaf]) front.length (by simp)) := by
  rw [hashRoot, chainRoot_concat nonempty, rootText, hashRoot]
  simp

theorem rootText_append {front : List α} (back : List α) {k : Nat} (within : k < front.length) :
    rootText empty hash pair (front ++ back) k (by simp; omega) =
      rootText empty hash pair front k within := by
  rw [rootText, rootText, List.take_append_of_le_length within.le, List.getElem_append_left within]

/-- Two chains with one root. Unless different texts were hashed to the same value at the same
distance from the end, the shorter chain is the longer one with its front collapsed into a root. -/
theorem hashRoot_binds (injective : ∀ {root₁ root₂ leaf₁ leaf₂}, P leaf₁ → P leaf₂ →
      pair root₁ leaf₁ = pair root₂ leaf₂ → root₁ = root₂ ∧ leaf₁ = leaf₂)
    {xs ys : List α} {d : Nat} (nonempty : xs ≠ []) (lengths : ys.length = xs.length + d)
    (leaf₁ : ∀ x ∈ xs, P x) (leaf₂ : ∀ y ∈ ys, P y)
    (same : hashRoot empty hash pair xs = hashRoot empty hash pair ys) :
    xs = hashRoot empty hash pair (ys.take (d+1)) :: ys.drop (d+1) ∨
      ∃ k, 1 ≤ k ∧ ∃ (within₁ : k < xs.length) (within₂ : k + d < ys.length),
        rootText empty hash pair xs k within₁ ≠ rootText empty hash pair ys (k+d) within₂ ∧
        hash (rootText empty hash pair xs k within₁) =
          hash (rootText empty hash pair ys (k+d) within₂) := by
  induction xs using List.reverseRecOn generalizing ys with
  | nil => contradiction
  | append_singleton front x ih =>
      induction ys using List.reverseRecOn with
      | nil => simp at lengths; omega
      | append_singleton front' y _ =>
          have fronts : front'.length = front.length + d := by simp at lengths; omega
          by_cases last : front = []
          · subst last
            left
            have all : (front' ++ [y]).length ≤ d + 1 := by simp at lengths ⊢; omega
            rw [List.take_of_length_le all, List.drop_eq_nil_of_le all, ← same]
            rfl
          · have last' : front' ≠ [] := by
              rintro rfl
              exact last (List.length_eq_zero_iff.mp (by simp at fronts; omega))
            rw [hashRoot_concat last, hashRoot_concat last'] at same
            by_cases texts : rootText empty hash pair (front ++ [x]) front.length (by simp) =
                rootText empty hash pair (front' ++ [y]) front'.length (by simp)
            · have pairs : pair (hashRoot empty hash pair front) x =
                  pair (hashRoot empty hash pair front') y := by simpa [rootText] using texts
              obtain ⟨roots, rfl⟩ := injective (leaf₁ x (by simp)) (leaf₂ y (by simp)) pairs
              rcases ih last fronts (fun z member => leaf₁ z (by simp [member]))
                (fun z member => leaf₂ z (by simp [member])) roots with collapsed | collision
              · have inside : d + 1 ≤ front'.length := by
                  have := List.length_pos_iff.mpr last
                  omega
                left
                rw [List.take_append_of_le_length inside, List.drop_append_of_le_length inside,
                  ← List.cons_append, ← collapsed]
              · obtain ⟨k, positive, within₁, within₂, different, equal⟩ := collision
                right
                refine ⟨k, positive, by simp; omega, by simp; omega, ?_⟩
                rw [rootText_append _ within₁, rootText_append _ within₂]
                exact ⟨different, equal⟩
            · right
              refine ⟨front.length, List.length_pos_iff.mpr last, by simp, by simp; omega, ?_⟩
              simp only [← fronts]
              exact ⟨texts, same⟩

theorem hashRoot_collapse {leaves : List α} {d : Nat} (within : d < leaves.length) :
    hashRoot empty hash pair (hashRoot empty hash pair (leaves.take (d+1)) :: leaves.drop (d+1)) =
      hashRoot empty hash pair leaves := by
  cases leaves with
  | nil => simp at within
  | cons leaf leaves =>
      rw [List.take_succ_cons, List.drop_succ_cons]
      simp only [hashRoot, chainRoot]
      rw [← List.foldl_append, List.take_append_drop]

end Binding
end SovereignPirtm.Library
