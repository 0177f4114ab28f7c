import Mathlib.Tactic

/-!
# Lists cut into blocks

The complete blocks of a list, the unfinished rest, and how both behave when the list grows. A
machine that folds a function over the complete blocks of its input and keeps the rest in a buffer
is described by these two functions alone.
-/

namespace SovereignPirtm.Library
variable {α : Type*} {n : Nat}

/-- The complete blocks of `xs`, of `n` elements each, in order. -/
def blocks (n : Nat) (xs : List α) : List (List α) :=
  (List.range (xs.length / n)).map fun i => (xs.drop (n * i)).take n

def rest (n : Nat) (xs : List α) : List α := xs.drop (n * (xs.length / n))

@[simp] theorem rest_length (xs : List α) : (rest n xs).length = xs.length % n := by
  rw [rest, List.length_drop, ← Nat.mod_def]

@[simp] theorem blocks_nil : blocks n ([] : List α) = [] := by simp [blocks]

@[simp] theorem rest_nil : rest n ([] : List α) = [] := by simp [rest]

theorem blocks_of_lt {xs : List α} (short : xs.length < n) : blocks n xs = [] := by
  simp [blocks, Nat.div_eq_of_lt short]

theorem rest_of_lt {xs : List α} (short : xs.length < n) : rest n xs = xs := by
  simp [rest, Nat.div_eq_of_lt short]

theorem blocks_append_of_length {b : List α} (positive : 0 < n) (whole : b.length = n)
    (xs : List α) : blocks n (b ++ xs) = b :: blocks n xs := by
  have count : (b ++ xs).length / n = xs.length / n + 1 := by
    rw [List.length_append, whole, Nat.add_div_left _ positive]
  have shift (i : Nat) : n * (i + 1) = b.length + n * i := by rw [whole]; ring
  rw [blocks, count, List.range_succ_eq_map, List.map_cons, List.map_map]
  congr 1
  · simp [← whole]
  · simp only [blocks, Function.comp_def, Nat.succ_eq_add_one, shift, List.drop_append,
      List.drop_eq_nil_of_le (Nat.le_add_right b.length _), Nat.add_sub_cancel_left, List.nil_append]

theorem rest_append_of_length {b : List α} (positive : 0 < n) (whole : b.length = n)
    (xs : List α) : rest n (b ++ xs) = rest n xs := by
  have count : (b ++ xs).length / n = xs.length / n + 1 := by
    rw [List.length_append, whole, Nat.add_div_left _ positive]
  have shift : n * (xs.length / n + 1) = b.length + n * (xs.length / n) := by rw [whole]; ring
  rw [rest, count, shift, List.drop_length_add_append, rest]

@[elab_as_elim]
theorem aligned_induction {motive : List α → Prop} (nil : motive [])
    (block : ∀ b xs, b.length = n → motive xs → motive (b ++ xs))
    (xs : List α) (aligned : n ∣ xs.length) : motive xs := by
  obtain ⟨k, hk⟩ := aligned
  induction k generalizing xs with
  | zero => rwa [List.length_eq_zero_iff.mp hk]
  | succ k ih =>
      rw [Nat.mul_add, Nat.mul_one] at hk
      rw [← List.take_append_drop n xs]
      refine block _ _ ?_ (ih _ ?_)
      · rw [List.length_take]
        omega
      · rw [List.length_drop]
        omega

theorem blocks_append_of_dvd {xs : List α} (positive : 0 < n) (aligned : n ∣ xs.length)
    (ys : List α) : blocks n (xs ++ ys) = blocks n xs ++ blocks n ys := by
  refine aligned_induction ?_ (fun b xs whole ih => ?_) xs aligned
  · simp
  · rw [List.append_assoc, blocks_append_of_length positive whole,
      blocks_append_of_length positive whole, ih, List.cons_append]

theorem rest_append_of_dvd {xs : List α} (positive : 0 < n) (aligned : n ∣ xs.length)
    (ys : List α) : rest n (xs ++ ys) = rest n ys := by
  refine aligned_induction ?_ (fun b xs whole ih => ?_) xs aligned
  · simp
  · rw [List.append_assoc, rest_append_of_length positive whole, ih]

theorem take_append_rest (xs : List α) : xs.take (n * (xs.length / n)) ++ rest n xs = xs :=
  List.take_append_drop _ xs

theorem dvd_length_take (xs : List α) : n ∣ (xs.take (n * (xs.length / n))).length := by
  rw [List.length_take, Nat.min_eq_left (Nat.mul_div_le _ _)]
  exact Nat.dvd_mul_right n _

theorem blocks_take (positive : 0 < n) (xs : List α) :
    blocks n (xs.take (n * (xs.length / n))) = blocks n xs := by
  have short : blocks n (rest n xs) = [] :=
    blocks_of_lt (by rw [rest_length]; exact Nat.mod_lt _ positive)
  conv_rhs => rw [← take_append_rest (n := n) xs]
  rw [blocks_append_of_dvd positive (dvd_length_take xs), short, List.append_nil]

theorem blocks_append (positive : 0 < n) (xs ys : List α) :
    blocks n (xs ++ ys) = blocks n xs ++ blocks n (rest n xs ++ ys) := by
  conv_lhs => rw [← take_append_rest (n := n) xs]
  rw [List.append_assoc, blocks_append_of_dvd positive (dvd_length_take xs), blocks_take positive]

theorem rest_append (positive : 0 < n) (xs ys : List α) :
    rest n (xs ++ ys) = rest n (rest n xs ++ ys) := by
  conv_lhs => rw [← take_append_rest (n := n) xs]
  rw [List.append_assoc, rest_append_of_dvd positive (dvd_length_take xs)]

theorem blocks_append_full (xs ys : List α) (positive : 0 < n)
    (full : (rest n xs).length + ys.length = n) :
    blocks n (xs ++ ys) = blocks n xs ++ [rest n xs ++ ys] ∧ rest n (xs ++ ys) = [] := by
  have whole : (rest n xs ++ ys).length = n := by rw [List.length_append, full]
  have alone := blocks_append_of_length positive whole []
  have nothing := rest_append_of_length positive whole []
  rw [List.append_nil, blocks_nil] at alone
  rw [List.append_nil, rest_nil] at nothing
  rw [blocks_append positive, rest_append positive, alone, nothing]
  exact ⟨rfl, rfl⟩

theorem blocks_append_short (xs ys : List α) (positive : 0 < n)
    (short : (rest n xs).length + ys.length < n) :
    blocks n (xs ++ ys) = blocks n xs ∧ rest n (xs ++ ys) = rest n xs ++ ys := by
  rw [← List.length_append] at short
  rw [blocks_append positive, rest_append positive, blocks_of_lt short, rest_of_lt short,
    List.append_nil]
  exact ⟨rfl, rfl⟩

theorem flatten_blocks_of_dvd {xs : List α} (positive : 0 < n) (aligned : n ∣ xs.length) :
    (blocks n xs).flatten = xs := by
  refine aligned_induction ?_ (fun b xs whole ih => ?_) xs aligned
  · simp
  · rw [blocks_append_of_length positive whole, List.flatten_cons, ih]

theorem flatten_blocks (positive : 0 < n) (xs : List α) :
    (blocks n xs).flatten = xs.take (n * (xs.length / n)) := by
  rw [← blocks_take positive, flatten_blocks_of_dvd positive (dvd_length_take xs)]

end SovereignPirtm.Library
