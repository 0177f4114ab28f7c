import SovereignPirtm.Library.Transition

/-!
# Sequential servers

A server answers one request after the other. A machine refines it when the requests and answers that
its steps show, in the order of the steps, are those of the server.
-/

namespace SovereignPirtm.Library
variable {σ τ α ρ β ω : Type*}

/-- What the steps of a run show. -/
def shown (step : σ → α → Option σ) (observe : σ → α → Option ω) : σ → List α → List ω
  | _, [] => []
  | s, action :: actions =>
      (observe s action).toList ++ (step s action).elim [] fun next => shown step observe next actions

theorem shown_cons {step : σ → α → Option σ} {observe : σ → α → Option ω} {s next : σ} {action : α}
    (taken : step s action = some next) (actions : List α) :
    shown step observe s (action :: actions) =
      (observe s action).toList ++ shown step observe next actions := by
  rw [shown, taken, Option.elim_some]

def serve (server : τ → ρ → τ × β) : τ → List ρ → List (ρ × β) × τ
  | t, [] => ([], t)
  | t, request :: requests =>
      let later := serve server (server t request).1 requests
      ((request, (server t request).2) :: later.1, later.2)

/-- A step shows nothing and stays related, or shows a request with the server's answer to it. -/
def Follows (server : τ → ρ → τ × β) (R : σ → τ → Prop) (next : σ) (t : τ) : Option (ρ × β) → Prop
  | none => R next t
  | some (request, answer) => (server t request).2 = answer ∧ R next (server t request).1

theorem run_served {step : σ → α → Option σ} {observe : σ → α → Option (ρ × β)}
    {server : τ → ρ → τ × β} (R : σ → τ → Prop)
    (followed : ∀ s t action next, R s t → step s action = some next →
      Follows server R next t (observe s action))
    {start finish : σ} {t : τ} (related : R start t) {actions : List α}
    (ran : run step start actions = some finish) :
    shown step observe start actions =
        (serve server t ((shown step observe start actions).map Prod.fst)).1 ∧
      R finish (serve server t ((shown step observe start actions).map Prod.fst)).2 := by
  induction actions generalizing start t with
  | nil =>
      obtain rfl := Option.some.inj ran
      exact ⟨rfl, related⟩
  | cons action actions ih =>
      rw [run_cons, Option.bind_eq_some_iff] at ran
      obtain ⟨next, taken, later⟩ := ran
      have follows := followed start t action next related taken
      rw [shown_cons taken]
      cases visible : observe start action with
      | none =>
          rw [visible] at follows
          exact ih follows later
      | some event =>
          obtain ⟨request, answer⟩ := event
          rw [visible] at follows
          obtain ⟨rfl, related'⟩ := follows
          obtain ⟨events, final⟩ := ih related' later
          exact ⟨congrArg (List.cons _) events, final⟩

end SovereignPirtm.Library
