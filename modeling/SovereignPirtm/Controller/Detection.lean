import SovereignPirtm.Controller.Alarm

/-!
# When a persisting drift is detected

The gain hides a drift for a time that depends on the drift and on the configuration alone, counted
from the last reset. So resets that come often enough hide it for good.
-/

namespace SovereignPirtm.Controller
noncomputable section

namespace ZenoConfig

/-- The time from a reset after which a drift reaches the threshold. -/
def maskingTime (config : ZenoConfig) (threshold rho : ℝ) : ℝ :=
  Real.log (config.kappa0 * rho / (rho - threshold)) / config.alpha

def Detects (config : ZenoConfig) (threshold rho elapsed : ℝ) : Prop :=
  threshold < rho ∧ config.maskingTime threshold rho ≤ elapsed

end ZenoConfig

namespace ZenoFintonController
variable {self : ZenoFintonController} {clock : Clock}

/-! ## One threshold -/

section Threshold
variable (gain : 0 < self.config.kappa0) (decay : 0 < self.config.alpha)
include gain decay

theorem maskingTime_le_iff {threshold rho now : ℝ} (proper : 0 < threshold)
    (above : threshold < rho) :
    self.config.maskingTime threshold rho ≤ self.elapsedSeconds now ↔
      threshold ≤ rho * (1 - self.computeKappa now) := by
  have excess : 0 < rho - threshold := sub_pos.mpr above
  have ratio : 0 < self.config.kappa0 * rho / (rho - threshold) :=
    div_pos (mul_pos gain (proper.trans above)) excess
  have kappa : self.computeKappa now * Real.exp (self.elapsedSeconds now * self.config.alpha) =
      self.config.kappa0 := by
    rw [computeKappa, mul_assoc, ← Real.exp_add, neg_mul, mul_comm (self.elapsedSeconds now),
      neg_add_cancel, Real.exp_zero, mul_one]
  have grown := Real.exp_pos (self.elapsedSeconds now * self.config.alpha)
  rw [ZenoConfig.maskingTime, div_le_iff₀ decay, Real.log_le_iff_le_exp ratio, div_le_iff₀ excess]
  calc self.config.kappa0 * rho ≤
        Real.exp (self.elapsedSeconds now * self.config.alpha) * (rho - threshold)
      ↔ Real.exp (self.elapsedSeconds now * self.config.alpha) * (self.computeKappa now * rho) ≤
          Real.exp (self.elapsedSeconds now * self.config.alpha) * (rho - threshold) := by
        rw [← mul_assoc, mul_comm _ (self.computeKappa now), kappa]
    _ ↔ self.computeKappa now * rho ≤ rho - threshold := mul_le_mul_iff_right₀ grown
    _ ↔ threshold ≤ rho * (1 - self.computeKappa now) := by
        constructor <;> intro reached <;> linarith

theorem threshold_le_applyGain_iff {threshold rho now : ℝ} (proper : 0 < threshold)
    (positive : 0 ≤ rho) : threshold ≤ self.applyGain now rho ↔
      self.config.Detects threshold rho (self.elapsedSeconds now) := by
  have clamp : threshold ≤ self.applyGain now rho ↔ threshold ≤ rho * (1 - self.computeKappa now) := by
    rw [applyGain]
    exact le_max_iff.trans (or_iff_right (not_le.mpr proper))
  rw [clamp, ZenoConfig.Detects]
  constructor
  · intro reached
    have above : threshold < rho := by
      have kappa : 0 < self.computeKappa now := mul_pos gain (Real.exp_pos _)
      rcases positive.eq_or_lt with rfl | drifts
      · linarith
      · have hidden := mul_pos drifts kappa
        linarith
    exact ⟨above, (maskingTime_le_iff gain decay proper above).mpr reached⟩
  · rintro ⟨above, late⟩
    exact (maskingTime_le_iff gain decay proper above).mp late

end Threshold

theorem step_action_stable {state : ManifoldState} (stable : ¬ Unstable self.config state) (tick : ℕ) :
    (self.step clock tick state).1.action =
      if self.config.rhoHalt ≤ self.applyGain (clock (tick + 1)) state.rho then .kill
      else if self.config.rhoWarn ≤ self.applyGain (clock (tick + 1)) state.rho then .warning
      else .continue := by
  rw [Unstable, not_or] at stable
  simp only [step, if_neg stable.1, if_neg stable.2, ge_iff_le]
  split_ifs <;> rfl

/-! ## Runs -/

/-- The readings of the clock that the epochs of a run count from. -/
def startsFrom (clock : Clock) : ZenoFintonController → (tick : ℕ) → List Call → List ℝ
  | self, _, [] => [self.startTime]
  | self, tick, .step state :: calls => startsFrom clock self (self.step clock tick state).2 calls
  | self, tick, .reset :: calls =>
      self.startTime :: startsFrom clock (self.reset (clock tick)) (tick + 1) calls

def starts (clock : Clock) (config : ZenoConfig) (calls : List Call) : List ℝ :=
  startsFrom clock (new config (clock 0)) 1 calls

theorem startsFrom_head (clock : Clock) (self : ZenoFintonController) (tick : ℕ)
    (calls : List Call) : (startsFrom clock self tick calls)[0]? = some self.startTime := by
  induction calls generalizing tick with
  | nil => rfl
  | cons call calls ih =>
      cases call with
      | step state => exact ih _
      | reset => rfl

theorem made_since {tick epoch : ℕ} {calls : List Call} {made : Made}
    (member : made ∈ runFrom clock self tick epoch calls) :
    ∃ (c : ZenoFintonController) (k : ℕ), c.config = self.config ∧ epoch ≤ made.epoch ∧
      (startsFrom clock self tick calls)[made.epoch - epoch]? = some c.startTime ∧
      made = c.made clock k made.epoch made.state := by
  induction calls generalizing self tick epoch with
  | nil => exact absurd member List.not_mem_nil
  | cons call calls ih =>
      cases call with
      | step state =>
          rcases List.mem_cons.mp member with rfl | member
          · refine ⟨self, tick, rfl, le_rfl, ?_, rfl⟩
            rw [ZenoFintonController.made, Nat.sub_self]
            exact startsFrom_head clock self tick (.step state :: calls)
          · exact ih member
      | reset =>
          obtain ⟨c, k, config, later, found, same⟩ := ih member
          refine ⟨c, k, config, by omega, ?_, same⟩
          have index : made.epoch - epoch = made.epoch - (epoch + 1) + 1 := by omega
          rw [index]
          exact found

theorem made_stable {state : ManifoldState} (stable : ¬ Unstable self.config state) (k epoch : ℕ) :
    (self.made clock k epoch state).ended = clock (k + 1) := by
  rw [made, step_stable stable]
  rfl

theorem made_detects (gain : 0 < self.config.kappa0) (decay : 0 < self.config.alpha)
    {threshold : ℝ} (proper : 0 < threshold) {made : Made} {k : ℕ}
    (same : made = self.made clock k made.epoch made.state) (positive : 0 ≤ made.state.rho)
    (stable : ¬ Unstable self.config made.state) :
    threshold ≤ self.applyGain (clock (k + 1)) made.state.rho ↔
      self.config.Detects threshold made.state.rho (made.ended - self.startTime) := by
  have ended := (congrArg Made.ended same).trans (made_stable stable k made.epoch)
  rw [threshold_le_applyGain_iff gain decay proper positive, ended, elapsedSeconds]

/-- A stable state with a drift is killed exactly when the masking time since the last reset is
over. -/
theorem run_kill_iff (clock : Clock) (config : ZenoConfig) (gain : 0 < config.kappa0)
    (decay : 0 < config.alpha) (halt : 0 < config.rhoHalt) (warn : 0 < config.rhoWarn)
    (calls : List Call) : ∀ made ∈ run clock config calls, 0 ≤ made.state.rho →
      ¬ Unstable config made.state →
      ∃ start, (starts clock config calls)[made.epoch]? = some start ∧
        (made.result.action = .kill ↔
          config.Detects config.rhoHalt made.state.rho (made.ended - start)) ∧
        (made.result.action = .continue ↔
          ¬ config.Detects config.rhoHalt made.state.rho (made.ended - start) ∧
            ¬ config.Detects config.rhoWarn made.state.rho (made.ended - start)) := by
  intro made member positive stable
  obtain ⟨c, k, config_eq, -, found, same⟩ := made_since member
  change c.config = config at config_eq
  subst config_eq
  refine ⟨c.startTime, found, ?_⟩
  have action := (congrArg (fun m : Made => m.result.action) same).trans
    (step_action_stable stable k)
  rw [action, ← made_detects gain decay halt same positive stable,
    ← made_detects gain decay warn same positive stable]
  by_cases killed : c.config.rhoHalt ≤ c.applyGain (clock (k + 1)) made.state.rho
  · simp [killed]
  · by_cases warned : c.config.rhoWarn ≤ c.applyGain (clock (k + 1)) made.state.rho
    · simp [killed, warned]
    · simp [killed, warned]

theorem run_kill_iff_defaults : ∃ made ∈ run (fun n => 10 * n) .defaults [.step ⟨2, 0, 1 / 2⟩],
    made.result.action = .kill := by
  have stable : ¬ Unstable .defaults ⟨2, 0, 1 / 2⟩ := by
    norm_num [Unstable, ZenoConfig.defaults]
  have member : (new .defaults 0).made (fun n => 10 * n) 1 0 ⟨2, 0, 1 / 2⟩ ∈
      run (fun n => 10 * n) .defaults [.step ⟨2, 0, 1 / 2⟩] := by
    simp [run, runFrom]
  obtain ⟨start, found, killed, -⟩ := run_kill_iff (fun n => 10 * n) .defaults
    (by norm_num [ZenoConfig.defaults]) (by norm_num [ZenoConfig.defaults])
    (by norm_num [ZenoConfig.defaults]) (by norm_num [ZenoConfig.defaults]) _ _ member zero_le_two
    stable
  have zero : start = 0 := by
    simpa [starts, startsFrom, made, new, eq_comm] using found
  have ended : ((new .defaults 0).made (fun n => 10 * n) 1 0 ⟨2, 0, 1 / 2⟩).ended = 10 * (1 + 1 : ℕ) :=
    made_stable stable 1 0
  have log_le := Real.log_le_sub_one_of_pos (zero_lt_two : (0 : ℝ) < 2)
  refine ⟨_, member, killed.mpr ⟨by norm_num [ZenoConfig.defaults, made], ?_⟩⟩
  rw [ended, zero]
  norm_num [ZenoConfig.maskingTime, ZenoConfig.defaults, made]
  linarith

end ZenoFintonController
end
end SovereignPirtm.Controller
