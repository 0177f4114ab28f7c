import Mathlib.Logic.Relation
import Mathlib.Tactic

/-!
# Nodes of a tree

Trees given by the children of each node, and what holds of all nodes that occur in one.
-/

namespace SovereignPirtm.Library
variable {α : Type*} {children more : α → List α} {e c n : α}

def Occurs (children : α → List α) : α → α → Prop :=
  Relation.ReflTransGen fun parent child => child ∈ children parent

theorem Occurs.refl : Occurs children e e := Relation.ReflTransGen.refl

theorem Occurs.below (member : c ∈ children e) (inside : Occurs children c n) :
    Occurs children e n := Relation.ReflTransGen.head member inside

theorem Occurs.trans (outer : Occurs children e c) (inner : Occurs children c n) :
    Occurs children e n := Relation.ReflTransGen.trans outer inner

theorem Occurs.child (member : c ∈ children e) : Occurs children e c := .below member .refl

theorem occurs_iff : Occurs children e n ↔ n = e ∨ ∃ c ∈ children e, Occurs children c n :=
  (Relation.ReflTransGen.cases_head_iff).trans (or_congr eq_comm Iff.rfl)

theorem forall_occurs_iff {P : α → Prop} : (∀ n, Occurs children e n → P n) ↔
    P e ∧ ∀ c ∈ children e, ∀ n, Occurs children c n → P n := by
  constructor
  · intro all
    exact ⟨all e .refl, fun c member n inside => all n (.below member inside)⟩
  · rintro ⟨root, branches⟩ n inside
    rcases occurs_iff.mp inside with rfl | ⟨c, member, inside⟩
    · exact root
    · exact branches c member n inside

theorem Occurs.mono (fewer : ∀ a, children a ⊆ more a) (inside : Occurs children e n) :
    Occurs more e n :=
  Relation.ReflTransGen.mono (fun a _ member => fewer a member) _ _ inside

end SovereignPirtm.Library
