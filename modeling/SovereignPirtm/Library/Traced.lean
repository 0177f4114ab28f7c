import Mathlib.Tactic

/-!
# Computations that record what happens on the way

A value together with the events of its computation, in order.
-/

namespace SovereignPirtm.Library

structure Traced (ε α : Type) where
  value : α
  events : List ε
deriving DecidableEq

namespace Traced
variable {ε α β : Type}

instance : Monad (Traced ε) where
  pure a := ⟨a, []⟩
  bind x f := ⟨(f x.value).value, x.events ++ (f x.value).events⟩

def note (event : ε) (happens : Bool) (value : α) : Traced ε α :=
  ⟨value, if happens then [event] else []⟩

/-- The value with the fact that it is the recorded one: a recursion on it can say why it ends. -/
def attach (x : Traced ε α) : Traced ε {a // a = x.value} := ⟨⟨x.value, rfl⟩, x.events⟩

@[simp] theorem value_pure (a : α) : (pure a : Traced ε α).value = a := rfl

@[simp] theorem value_bind (x : Traced ε α) (f : α → Traced ε β) :
    (x >>= f).value = (f x.value).value := rfl

theorem value_bind_attach (x : Traced ε α) (f : {a // a = x.value} → Traced ε β) :
    (x.attach >>= f).value = (f ⟨x.value, rfl⟩).value := rfl

@[simp] theorem value_note (event : ε) (happens : Bool) (value : α) :
    (note event happens value).value = value := rfl

@[simp] theorem events_pure (a : α) : (pure a : Traced ε α).events = [] := rfl

@[simp] theorem events_bind (x : Traced ε α) (f : α → Traced ε β) :
    (x >>= f).events = x.events ++ (f x.value).events := rfl

@[simp] theorem events_note_eq_nil_iff (event : ε) (happens : Bool) (value : α) :
    (note event happens value).events = [] ↔ happens = false := by
  cases happens <;> simp [note]

theorem events_ite_pure (c : Prop) [Decidable c] (a b : α) :
    (if c then pure a else pure b : Traced ε α).events = [] := by
  split <;> rfl

theorem value_foldlM (f : α → β → Traced ε α) (start : α) (xs : List β) :
    (xs.foldlM f start).value = xs.foldl (fun a x => (f a x).value) start := by
  induction xs generalizing start with
  | nil => rfl
  | cons x xs ih => rw [List.foldlM_cons, value_bind, ih, List.foldl_cons]

/-! ## Properties of all events -/

def All (P : ε → Prop) (x : Traced ε α) : Prop := ∀ event ∈ x.events, P event

theorem all_pure {P : ε → Prop} (a : α) : (pure a : Traced ε α).All P := by
  intro event member
  exact absurd member List.not_mem_nil

theorem All.bind {P : ε → Prop} {x : Traced ε α} {f : α → Traced ε β} (first : x.All P)
    (rest : (f x.value).All P) : (x >>= f).All P :=
  List.forall_mem_append.mpr ⟨first, rest⟩

theorem All.bind_attach {P : ε → Prop} {x : Traced ε α} {f : {a // a = x.value} → Traced ε β}
    (first : x.All P) (rest : (f ⟨x.value, rfl⟩).All P) : (x.attach >>= f).All P :=
  List.forall_mem_append.mpr ⟨first, rest⟩

theorem All.foldlM {P : ε → Prop} {f : α → β → Traced ε α} {xs : List β}
    (each : ∀ a, ∀ x ∈ xs, (f a x).All P) (start : α) : (xs.foldlM f start).All P := by
  induction xs generalizing start with
  | nil => exact all_pure start
  | cons x xs ih =>
      rw [List.foldlM_cons]
      apply (each start x List.mem_cons_self).bind
      exact ih (fun a y member => each a y (List.mem_cons_of_mem x member)) _

end Traced
end SovereignPirtm.Library
