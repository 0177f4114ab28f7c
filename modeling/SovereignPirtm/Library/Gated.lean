import Mathlib.Tactic

/-!
# Logs that drop late entries

A log that takes some of its entries only while it is still empty. Entries from several sources are
logged as if each source had a log of its own exactly when no source after the first noisy one starts
with such an entry.
-/

namespace SovereignPirtm.Library
variable {α β : Type*}

def gated (late : α → Bool) : Bool → List α → List α
  | true, x :: xs => x :: xs.filter (!late ·)
  | _, xs => xs.filter (!late ·)

section Gated
variable (late : α → Bool)

@[simp] theorem gated_nil (fresh : Bool) : gated late fresh [] = [] := by
  cases fresh <;> rfl

@[simp] theorem gated_cons (x : α) (xs : List α) :
    gated late true (x :: xs) = x :: xs.filter (!late ·) := rfl

@[simp] theorem gated_false (xs : List α) : gated late false xs = xs.filter (!late ·) := by
  cases xs <;> rfl

theorem gated_append (fresh : Bool) (xs ys : List α) :
    gated late fresh (xs ++ ys) =
      gated late fresh xs ++ gated late (fresh && xs.isEmpty) ys := by
  cases fresh with
  | false => simp
  | true =>
      cases xs with
      | nil => simp
      | cons x xs => simp

theorem gated_sublist_self (fresh : Bool) (xs : List α) : (gated late fresh xs).Sublist xs := by
  cases fresh with
  | false =>
      rw [gated_false]
      exact List.filter_sublist
  | true =>
      cases xs with
      | nil => exact List.Sublist.refl _
      | cons x xs => exact List.filter_sublist.cons_cons x

theorem gated_sublist (xs : List α) :
    (gated late false xs).Sublist (gated late true xs) := by
  cases xs with
  | nil => simp
  | cons x xs =>
      rw [gated_false, gated_cons, List.filter_cons]
      split
      · exact List.Sublist.refl _
      · exact List.sublist_cons_self _ _

theorem gated_false_eq_iff (xs : List α) :
    gated late false xs = gated late true xs ↔ ∀ x ∈ xs.head?, late x = false := by
  cases xs with
  | nil => simp
  | cons x xs =>
      rw [gated_false, gated_cons, List.filter_cons, List.head?_cons]
      constructor
      · intro same y member
        obtain rfl : x = y := by simpa using member
        by_contra noisy
        have longer := congrArg List.length same
        simp [noisy] at longer
      · intro quiet
        simp [quiet x rfl]

end Gated

/-- What is left of a log of answers can be laid at the door of entries that gave them. -/
theorem exists_sublist_of_filterMap {answer : β → Option α} {kept : List α} {entries : List β}
    (log : kept.Sublist (entries.filterMap answer)) :
    ∃ blamed, blamed.Sublist entries ∧ List.Forall₂ (fun x y => answer y = some x) kept blamed := by
  induction entries generalizing kept with
  | nil =>
      obtain rfl := List.sublist_nil.mp log
      exact ⟨[], List.Sublist.refl _, .nil⟩
  | cons y entries ih =>
      cases given : answer y with
      | none =>
          rw [List.filterMap_cons_none given] at log
          obtain ⟨blamed, inside, gave⟩ := ih log
          exact ⟨blamed, inside.cons y, gave⟩
      | some x =>
          rw [List.filterMap_cons_some given] at log
          cases log with
          | cons _ log =>
              obtain ⟨blamed, inside, gave⟩ := ih log
              exact ⟨blamed, inside.cons y, gave⟩
          | cons_cons _ log =>
              obtain ⟨blamed, inside, gave⟩ := ih log
              exact ⟨y :: blamed, inside.cons_cons y, .cons given gave⟩

theorem flatMap_eq_iff_of_sublist {f g : β → List α} {parts : List β}
    (fewer : ∀ p, (f p).Sublist (g p)) :
    parts.flatMap f = parts.flatMap g ↔ ∀ p ∈ parts, f p = g p := by
  constructor
  · intro same
    induction parts with
    | nil => simp
    | cons p parts ih =>
        rw [List.flatMap_cons, List.flatMap_cons] at same
        have rest : (parts.flatMap f).length ≤ (parts.flatMap g).length :=
          (List.Sublist.flatMap_right parts fun p _ => fewer p).length_le
        have lengths := congrArg List.length same
        rw [List.length_append, List.length_append] at lengths
        have first : f p = g p := (fewer p).eq_of_length_le (by omega)
        rw [first, List.append_cancel_left_eq] at same
        exact List.forall_mem_cons.mpr ⟨first, ih same⟩
  · intro same
    exact List.flatMap_congr same

theorem gated_flatMap_iff {late : α → Bool} {f : β → List α} {parts : List β} :
    gated late true (parts.flatMap f) = parts.flatMap (fun p => gated late true (f p)) ↔
      parts.Pairwise fun p q => f p ≠ [] → ∀ x ∈ (f q).head?, late x = false := by
  induction parts with
  | nil => simp
  | cons p parts ih =>
      rw [List.flatMap_cons, List.flatMap_cons, gated_append, List.append_cancel_left_eq,
        List.pairwise_cons, ← ih]
      cases logged : f p with
      | nil => simp
      | cons x xs =>
          have quiet : gated late false (parts.flatMap f) =
              parts.flatMap (fun q => gated late false (f q)) := by
            simp only [gated_false, List.filter_flatMap]
          rw [List.isEmpty_cons, Bool.and_false, quiet,
            flatMap_eq_iff_of_sublist fun q => gated_sublist late (f q)]
          simp only [gated_false_eq_iff, ne_eq, List.cons_ne_nil, not_false_eq_true, true_implies]
          constructor
          · intro heads
            refine ⟨heads, ih.mpr ?_⟩
            exact List.pairwise_of_forall_mem_list fun p _ q member _ => heads q member
          · exact And.left

end SovereignPirtm.Library
