import Mathlib.Tactic

/-!
# Scripts

Programs that put questions to their environment and go on with its answers. Nothing is assumed of
the environment: a run takes whatever is answered, and what holds of every run holds in every
environment.
-/

namespace SovereignPirtm.Library

inductive Script {Q : Type} (A : Q → Type) (α : Type) where
  | done (a : α)
  | raise
  | ask (q : Q) (next : A q → Script A α)

namespace Script
variable {Q : Type} {A : Q → Type} {α β ι : Type}

abbrev Event (A : Q → Type) : Type := (q : Q) × A q

def bind : Script A α → (α → Script A β) → Script A β
  | done a, f => f a
  | raise, _ => raise
  | ask q next, f => ask q fun answer => (next answer).bind f

instance : Monad (Script A) where
  pure := done
  bind := bind

theorem bind_bind {γ : Type} (s : Script A α) (f : α → Script A β) (g : β → Script A γ) :
    s >>= f >>= g = s >>= fun a => f a >>= g := by
  change (s.bind f).bind g = s.bind fun a => (f a).bind g
  induction s with
  | done a => rfl
  | raise => rfl
  | ask q next ih => exact congrArg (ask q) (funext ih)

def query (q : Q) : Script A (A q) := ask q done

/-- The questions with their answers, and the value at the end, unless an exception leaves. -/
def Run : Script A α → List (Event A) → Option α → Prop
  | done a, events, out => events = [] ∧ out = some a
  | raise, events, out => events = [] ∧ out = none
  | ask q next, events, out => ∃ answer rest, events = ⟨q, answer⟩ :: rest ∧ (next answer).Run rest out

variable {events : List (Event A)}

theorem run_query_bind_iff {q : Q} {f : A q → Script A α} {out : Option α} :
    (query q >>= f).Run events out ↔
      ∃ answer rest, events = ⟨q, answer⟩ :: rest ∧ (f answer).Run rest out := Iff.rfl

theorem run_bind_iff {s : Script A α} {f : α → Script A β} {out : Option β} :
    (s >>= f).Run events out ↔ (out = none ∧ s.Run events none) ∨
      ∃ a before after, events = before ++ after ∧ s.Run before (some a) ∧ (f a).Run after out := by
  change (s.bind f).Run events out ↔ _
  induction s generalizing events with
  | done a => simp [bind, Run]
  | raise => simp [bind, Run, and_comm]
  | ask q next ih =>
      simp only [bind, Run, ih]
      constructor
      · rintro ⟨answer, rest, rfl, ⟨rfl, raised⟩ | ⟨a, before, after, rfl, first, second⟩⟩
        · exact .inl ⟨rfl, answer, rest, rfl, raised⟩
        · exact .inr ⟨a, ⟨q, answer⟩ :: before, after, rfl, ⟨answer, before, rfl, first⟩, second⟩
      · rintro (⟨rfl, answer, rest, rfl, raised⟩ |
          ⟨a, _, after, rfl, ⟨answer, before, rfl, first⟩, second⟩)
        · exact ⟨answer, rest, rfl, .inl ⟨rfl, raised⟩⟩
        · exact ⟨answer, before ++ after, rfl, .inr ⟨a, before, after, rfl, first, second⟩⟩

/-! ## One after the other -/

def each (f : ι → Script A α) : List ι → Script A (List α)
  | [] => pure []
  | x :: xs => do
      let a ← f x
      let values ← each f xs
      pure (a :: values)

variable {f : ι → Script A α} {xs : List ι}

theorem each_values {values : List α} (ran : (each f xs).Run events (some values)) :
    List.Forall₂ (fun x a => ∃ part, part <:+: events ∧ (f x).Run part (some a)) xs values := by
  induction xs generalizing events values with
  | nil =>
      obtain ⟨-, same⟩ := ran
      rw [Option.some.inj same]
      exact .nil
  | cons x xs ih =>
      rcases run_bind_iff.mp ran with ⟨raised, -⟩ | ⟨a, before, after, rfl, first, rest⟩
      · cases raised
      · rcases run_bind_iff.mp rest with ⟨raised, -⟩ | ⟨later, middle, final, rfl, second, last⟩
        · cases raised
        · obtain ⟨rfl, same⟩ := last
          rw [Option.some.inj same, List.append_nil]
          refine .cons ⟨before, ⟨[], middle, rfl⟩, first⟩ ((ih second).imp ?_)
          rintro y b ⟨part, inside, made⟩
          exact ⟨part, inside.trans (List.suffix_append before middle).isInfix, made⟩

end Script
end SovereignPirtm.Library
