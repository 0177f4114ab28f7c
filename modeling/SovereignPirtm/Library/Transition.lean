import Mathlib.Tactic

/-!
# Runs of partial steps

A machine is a step that may be undefined. Its runs, the states they reach, and the rules by which a
fact about one step becomes a fact about every run.
-/

namespace SovereignPirtm.Library
variable {σ α : Type*}

def run (step : σ → α → Option σ) (start : σ) (actions : List α) : Option σ :=
  actions.foldlM step start

@[simp] theorem run_nil (step : σ → α → Option σ) (start : σ) : run step start [] = some start := rfl

theorem run_cons (step : σ → α → Option σ) (start : σ) (action : α) (actions : List α) :
    run step start (action :: actions) =
      (step start action).bind fun next => run step next actions := rfl

theorem run_append (step : σ → α → Option σ) (start : σ) (first second : List α) :
    run step start (first ++ second) =
      (run step start first).bind fun middle => run step middle second :=
  List.foldlM_append

theorem run_concat_iff {step : σ → α → Option σ} {start finish : σ} {actions : List α} {last : α} :
    run step start (actions ++ [last]) = some finish ↔
      ∃ before, run step start actions = some before ∧ step before last = some finish := by
  rw [run_append, Option.bind_eq_some_iff]
  simp [run_cons]

/-- What holds at the start and survives a step holds after every run. The fact may speak of the
actions taken so far. -/
theorem run_invariant {step : σ → α → Option σ} {start : σ} (Inv : List α → σ → Prop)
    (initial : Inv [] start)
    (preserved : ∀ actions before last finish, Inv actions before → step before last = some finish →
      Inv (actions ++ [last]) finish)
    {actions : List α} {finish : σ} (ran : run step start actions = some finish) :
    Inv actions finish := by
  induction actions using List.reverseRecOn generalizing finish with
  | nil => exact Option.some.inj ran ▸ initial
  | append_singleton actions last ih =>
      obtain ⟨before, earlier, final⟩ := run_concat_iff.mp ran
      exact preserved _ _ _ _ (ih earlier) final

def Reachable (step : σ → α → Option σ) (start finish : σ) : Prop :=
  ∃ actions, run step start actions = some finish

namespace Reachable
variable {step : σ → α → Option σ} {start middle finish : σ}

theorem refl : Reachable step start start := ⟨[], rfl⟩

theorem single {action : α} (taken : step start action = some finish) :
    Reachable step start finish := ⟨[action], by simp [run_cons, taken]⟩

theorem trans (first : Reachable step start middle) (second : Reachable step middle finish) :
    Reachable step start finish := by
  obtain ⟨as, first⟩ := first
  obtain ⟨bs, second⟩ := second
  exact ⟨as ++ bs, by rw [run_append, first, Option.bind_some, second]⟩

theorem head {action : α} (taken : step start action = some middle)
    (later : Reachable step middle finish) : Reachable step start finish :=
  (single taken).trans later

theorem invariant (Inv : σ → Prop) (reached : Reachable step start finish) (initial : Inv start)
    (preserved : ∀ before action after, Inv before → step before action = some after → Inv after) :
    Inv finish := by
  obtain ⟨actions, ran⟩ := reached
  exact run_invariant (fun _ => Inv) initial
    (fun _ before last after held taken => preserved before last after held taken) ran

end Reachable
end SovereignPirtm.Library
