import SovereignPirtm.Controller.ZenoFinton
import SovereignPirtm.Library.Cascade

/-!
# The alarm never weakens

With a non-negative and decaying gain, of two steps of one epoch the later one, on a state that is
no better, reports an action that is no milder.
-/

namespace SovereignPirtm.Controller
open Library

/-! ## The order of the actions -/

namespace ControllerAction

def severity : ControllerAction → ℕ
  | .continue => 0
  | .warning => 1
  | .kill => 2
  | .error => 0

/-- `Continue < Warning < Kill`; `Error` is comparable with none of them. -/
instance : Preorder ControllerAction where
  le first second := (first = .error ↔ second = .error) ∧ first.severity ≤ second.severity
  le_refl _ := ⟨Iff.rfl, Nat.le_refl _⟩
  le_trans _ _ _ below above := ⟨below.1.trans above.1, below.2.trans above.2⟩

theorem le_iff {first second : ControllerAction} :
    first ≤ second ↔ (first = .error ↔ second = .error) ∧ first.severity ≤ second.severity := Iff.rfl

theorem continue_le_warning : ControllerAction.continue ≤ .warning := by simp [le_iff, severity]

theorem warning_le_kill : ControllerAction.warning ≤ .kill := by simp [le_iff, severity]

theorem kill_le_iff (action : ControllerAction) : .kill ≤ action ↔ action = .kill := by
  cases action <;> simp [le_iff, severity]

end ControllerAction

def NoBetter (first second : ManifoldState) : Prop :=
  first.rho ≤ second.rho ∧ first.delta ≤ second.delta ∧ first.lambdaLProduct ≤ second.lambdaLProduct

namespace ZenoFintonController
noncomputable section

variable {self : ZenoFintonController} {clock : Clock}

/-! ## The gain -/

theorem computeKappa_anti (gain : 0 ≤ self.config.kappa0) (decay : 0 ≤ self.config.alpha) :
    Antitone self.computeKappa := by
  intro now now' later
  apply mul_le_mul_of_nonneg_left _ gain
  rw [Real.exp_le_exp, neg_mul, neg_mul, neg_le_neg_iff]
  exact mul_le_mul_of_nonneg_left (sub_le_sub_right later self.startTime) decay

theorem applyGain_mono (gain : 0 ≤ self.config.kappa0) (decay : 0 ≤ self.config.alpha)
    {now now' rho rho' : ℝ} (later : now ≤ now') (positive : 0 ≤ rho) (larger : rho ≤ rho') :
    self.applyGain now rho ≤ self.applyGain now' rho' := by
  have kappa := computeKappa_anti gain decay later
  rw [applyGain, applyGain]
  -- above gain 1 the factor is negative and the clamp holds the product at 0
  rcases le_total 1 (self.computeKappa now) with amplified | damped
  · have clamped : rho * (1 - self.computeKappa now) ≤ 0 :=
      mul_nonpos_of_nonneg_of_nonpos positive (by linarith)
    rw [max_eq_left clamped]
    exact le_max_left _ _
  · apply max_le_max le_rfl
    exact mul_le_mul larger (by linarith) (by linarith) (positive.trans larger)

/-! ## One step as a cascade -/

def tests (config : ZenoConfig) : List (Set (ℝ × ℝ × ℝ) × ControllerAction) :=
  [({seen | seen.1 ≥ 1}, .kill), ({seen | seen.2.1 ≥ config.deltaMax}, .kill),
    ({seen | seen.2.2 ≥ config.rhoHalt}, .kill), ({seen | seen.2.2 ≥ config.rhoWarn}, .warning)]

theorem step_action (tick : ℕ) (state : ManifoldState) :
    (self.step clock tick state).1.action = cascade (tests self.config) .continue
      (state.lambdaLProduct, state.delta, self.applyGain (clock (tick + 1)) state.rho) := by
  simp only [step, tests, cascade, Set.mem_ofPred_eq]
  repeat' split
  all_goals rfl

theorem tests_mono (config : ZenoConfig) : Monotone (cascade (tests config) .continue) := by
  apply cascade_mono
  · simp only [tests, List.forall_mem_cons]
    refine ⟨?_, ?_, ?_, ?_, by simp⟩
    · exact fun _ _ le holds => ge_trans le.1 holds
    · exact fun _ _ le holds => ge_trans le.2.1 holds
    · exact fun _ _ le holds => ge_trans le.2.2 holds
    · exact fun _ _ le holds => ge_trans le.2.2 holds
  · have weaker := ControllerAction.continue_le_warning.trans ControllerAction.warning_le_kill
    simp [levels, tests, ControllerAction.continue_le_warning, ControllerAction.warning_le_kill,
      weaker]

/-- The two tests that come before the gain is applied. -/
def Unstable (config : ZenoConfig) (state : ManifoldState) : Prop :=
  state.lambdaLProduct ≥ 1 ∨ state.delta ≥ config.deltaMax

theorem step_unstable {state : ManifoldState} (unstable : Unstable self.config state) (tick : ℕ) :
    (self.step clock tick state).1.action = .kill ∧
      (self.step clock tick state).2 = tick + 1 := by
  rcases unstable with divergent | drifted
  · simp only [step, if_pos divergent, and_self]
  · simp only [step, if_pos drifted]
    split
    all_goals exact ⟨rfl, rfl⟩

theorem step_stable {state : ManifoldState} (stable : ¬ Unstable self.config state) (tick : ℕ) :
    (self.step clock tick state).2 = tick + 2 := by
  rw [Unstable, not_or] at stable
  simp only [step, if_neg stable.1, if_neg stable.2]
  repeat' split
  all_goals rfl

theorem step_not_error (tick : ℕ) (state : ManifoldState) :
    (self.step clock tick state).1.action ≠ .error := by
  have reported := cascade_mem_levels (tests self.config) .continue
    (state.lambdaLProduct, state.delta, self.applyGain (clock (tick + 1)) state.rho)
  rw [← step_action tick state] at reported
  intro failed
  simp [failed, levels, tests] at reported

theorem step_action_mono (steady : Monotone clock) (gain : 0 ≤ self.config.kappa0)
    (decay : 0 ≤ self.config.alpha) {tick tick' : ℕ} {state state' : ManifoldState}
    (later : clock ((self.step clock tick state).2 - 1) ≤ clock tick')
    (positive : 0 ≤ state.rho) (worse : NoBetter state state') :
    (self.step clock tick state).1.action ≤ (self.step clock tick' state').1.action := by
  obtain ⟨rho, delta, product⟩ := worse
  by_cases unstable : Unstable self.config state
  · have unstable' : Unstable self.config state' :=
      unstable.imp (fun h => ge_trans product h) (fun h => ge_trans delta h)
    rw [(step_unstable unstable tick).1, (step_unstable unstable' tick').1]
  · rw [step_stable unstable] at later
    have applied : clock (tick + 1) ≤ clock (tick' + 1) := later.trans (steady (Nat.le_succ tick'))
    rw [step_action, step_action]
    exact tests_mono self.config ⟨product, delta, applyGain_mono gain decay applied positive rho⟩

/-! ## Steps of one run -/

theorem lt_step_tick (tick : ℕ) (state : ManifoldState) : tick < (self.step clock tick state).2 := by
  by_cases unstable : Unstable self.config state
  · rw [(step_unstable unstable tick).2]
    exact Nat.lt_add_one tick
  · rw [step_stable unstable]
    omega

/-- A step of a run is made no earlier than the run begins, and by the controller that the run begins
with unless there was a reset. -/
theorem mem_runFrom (steady : Monotone clock) {tick epoch : ℕ} {calls : List Call} {made : Made}
    (member : made ∈ runFrom clock self tick epoch calls) :
    clock tick ≤ made.began ∧ epoch ≤ made.epoch ∧
      (made.epoch = epoch → ∃ tick, made = self.made clock tick epoch made.state) := by
  induction calls generalizing self tick epoch with
  | nil => exact absurd member List.not_mem_nil
  | cons call calls ih =>
      cases call with
      | step state =>
          rcases List.mem_cons.mp member with rfl | member
          · exact ⟨le_rfl, le_rfl, fun _ => ⟨tick, rfl⟩⟩
          · obtain ⟨began, epochs⟩ := ih member
            exact ⟨(steady (lt_step_tick tick state).le).trans began, epochs⟩
      | reset =>
          obtain ⟨began, later, -⟩ := ih member
          exact ⟨(steady (Nat.le_succ tick)).trans began, by omega, by omega⟩

theorem runFrom_chronological (steady : Monotone clock) (tick epoch : ℕ) (calls : List Call) :
    (runFrom clock self tick epoch calls).Pairwise (·.ended ≤ ·.began) := by
  induction calls generalizing self tick epoch with
  | nil => exact List.Pairwise.nil
  | cons call calls ih =>
      cases call with
      | step state =>
          refine List.pairwise_cons.mpr ⟨?_, ih _ _⟩
          intro made member
          exact (steady (Nat.sub_le _ 1)).trans (mem_runFrom steady member).1
      | reset => exact ih _ _

theorem same_epoch (steady : Monotone clock) {tick epoch : ℕ} {calls : List Call} {first second : Made}
    (one : first ∈ runFrom clock self tick epoch calls)
    (other : second ∈ runFrom clock self tick epoch calls) (same : first.epoch = second.epoch) :
    ∃ c : ZenoFintonController, c.config = self.config ∧
      (∃ tick, first = c.made clock tick first.epoch first.state) ∧
      ∃ tick, second = c.made clock tick second.epoch second.state := by
  induction calls generalizing self tick epoch with
  | nil => exact absurd one List.not_mem_nil
  | cons call calls ih =>
      cases call with
      | reset =>
          -- the reset keeps the configuration
          have restarted := @ih (self.reset (clock tick)) (tick + 1) (epoch + 1) one other
          exact restarted
      | step state =>
          by_cases opening : first.epoch = epoch
          · obtain ⟨tick₁, made₁⟩ := (mem_runFrom steady one).2.2 opening
            obtain ⟨tick₂, made₂⟩ := (mem_runFrom steady other).2.2 (same ▸ opening)
            exact ⟨self, rfl, ⟨tick₁, by rwa [opening]⟩, ⟨tick₂, by rwa [← same, opening]⟩⟩
          · have one := List.mem_of_ne_of_mem (fun h => opening (congrArg Made.epoch h)) one
            have other := List.mem_of_ne_of_mem
              (fun h => opening (same.trans (congrArg Made.epoch h))) other
            exact ih one other

/-! ## The law -/

theorem alarm_never_weakens (clock : Clock) (steady : Monotone clock) (config : ZenoConfig)
    (gain : 0 ≤ config.kappa0) (decay : 0 ≤ config.alpha) (calls : List Call) :
    (run clock config calls).Pairwise (·.ended ≤ ·.began) ∧
      ∀ first ∈ run clock config calls, ∀ second ∈ run clock config calls,
        first.epoch = second.epoch → first.ended ≤ second.began →
        0 ≤ first.state.rho → NoBetter first.state second.state →
          first.result.action ≤ second.result.action ∧ second.result.action ≠ .error ∧
          (first.result.action = .kill →
            second.result.action ≠ .continue ∧ second.result.action ≠ .warning) := by
  refine ⟨runFrom_chronological steady 1 0 calls, ?_⟩
  intro first one second other same later positive worse
  obtain ⟨c, config_eq, ⟨tick₁, made₁⟩, tick₂, made₂⟩ := same_epoch steady one other same
  change c.config = config at config_eq
  rw [← config_eq] at gain decay
  have first_result : first.result = (c.step clock tick₁ first.state).1 := congrArg Made.result made₁
  have second_result : second.result = (c.step clock tick₂ second.state).1 :=
    congrArg Made.result made₂
  have ended : first.ended = clock ((c.step clock tick₁ first.state).2 - 1) :=
    congrArg Made.ended made₁
  have began : second.began = clock tick₂ := congrArg Made.began made₂
  rw [ended, began] at later
  have severer := step_action_mono steady gain decay later positive worse
  rw [← first_result, ← second_result] at severer
  refine ⟨severer, second_result ▸ step_not_error tick₂ second.state, ?_⟩
  intro killed
  have still := (ControllerAction.kill_le_iff _).mp (killed ▸ severer)
  simp [still]

theorem applyGain_defaults : 1 ≤ (new .defaults 0).applyGain 20 2 := by
  have kappa : (new .defaults 0).computeKappa 20 = (Real.exp 2)⁻¹ := by
    rw [computeKappa, elapsedSeconds, ← Real.exp_neg]
    norm_num [new, ZenoConfig.defaults]
  have grown := Real.add_one_le_exp (2 : ℝ)
  have decayed : (Real.exp 2)⁻¹ ≤ 2⁻¹ := inv_anti₀ zero_lt_two (by linarith)
  rw [applyGain, kappa]
  exact le_max_of_le_right (by linarith)

/-- Ten seconds between the readings let the gain decay enough for a first Kill. -/
theorem alarm_never_weakens_persisting :
    let clock : Clock := fun n => 10 * n
    let first := (new .defaults 0).made clock 1 0 ⟨2, 0, 1 / 2⟩
    let second := (new .defaults 0).made clock 3 0 ⟨2, 0, 1 / 2⟩
    run clock .defaults [.step ⟨2, 0, 1 / 2⟩, .step ⟨2, 0, 1 / 2⟩] = [first, second] ∧
      first.result.action = .kill ∧ first.result.action ≤ second.result.action ∧
      second.result.action ≠ .continue ∧ second.result.action ≠ .warning := by
  intro clock first second
  have stable : ¬ Unstable (new .defaults 0).config ⟨2, 0, 1 / 2⟩ := by
    norm_num [Unstable, new, ZenoConfig.defaults]
  have next : ((new .defaults 0).step clock 1 ⟨2, 0, 1 / 2⟩).2 = 3 := step_stable stable 1
  have start : new .defaults (clock 0) = new .defaults 0 := by simp [clock]
  have both : run clock .defaults [.step ⟨2, 0, 1 / 2⟩, .step ⟨2, 0, 1 / 2⟩] = [first, second] := by
    simp only [run, runFrom, start, next, first, second]
  have halted : (new .defaults 0).applyGain (clock 2) 2 ≥ (new .defaults 0).config.rhoHalt := by
    have twenty : clock 2 = 20 := by norm_num [clock]
    rw [twenty]
    exact applyGain_defaults
  have killed : first.result.action = .kill := by
    rw [Unstable, not_or] at stable
    change ((new .defaults 0).step clock 1 ⟨2, 0, 1 / 2⟩).1.action = .kill
    rw [step, if_neg stable.1, if_neg stable.2, if_pos halted]
  have steady : Monotone clock := fun n n' later =>
    mul_le_mul_of_nonneg_left (Nat.cast_le.mpr later) (by norm_num)
  obtain ⟨chronological, law⟩ := alarm_never_weakens clock steady .defaults
    (by norm_num [ZenoConfig.defaults]) (by norm_num [ZenoConfig.defaults])
    [.step ⟨2, 0, 1 / 2⟩, .step ⟨2, 0, 1 / 2⟩]
  rw [both] at chronological law
  have later := (List.pairwise_cons.mp chronological).1 _ List.mem_cons_self
  obtain ⟨severer, -, persists⟩ := law first List.mem_cons_self second
    (List.mem_cons_of_mem _ List.mem_cons_self) rfl later zero_le_two ⟨le_rfl, le_rfl, le_rfl⟩
  exact ⟨both, killed, severer, persists killed⟩

end
end ZenoFintonController
end SovereignPirtm.Controller
