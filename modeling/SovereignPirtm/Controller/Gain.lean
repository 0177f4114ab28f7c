import SovereignPirtm.Controller.Alarm

/-!
# The reported gain

A step reports the gain at one reading of the clock and applies the gain at the next one. When does
the difference show in the result?
-/

namespace SovereignPirtm.Controller

noncomputable section

def Consistent (result : ControllerResult) : Prop :=
  result.attenuatedRho = max 0 (result.rawRho * (1 - result.kappa))

namespace ZenoConfig
variable (config : ZenoConfig)

/-- The gain is at least 1 after that time. -/
def Saturated (elapsed : ℝ) : Prop :=
  0 < config.kappa0 ∧ config.alpha * elapsed ≤ Real.log config.kappa0

/-- The gain is at most 1 after that time. -/
def Decayed (elapsed : ℝ) : Prop :=
  config.kappa0 ≤ 0 ∨ Real.log config.kappa0 ≤ config.alpha * elapsed

/-- A drift that is attenuated alike after the one time and after the other: the gain does not
change, or the clamp hides the change. -/
def Insensitive (rho elapsed elapsed' : ℝ) : Prop :=
  rho = 0 ∨ config.kappa0 = 0 ∨ config.alpha = 0 ∨ elapsed = elapsed' ∨
    (0 < rho ∧ config.Saturated elapsed ∧ config.Saturated elapsed') ∨
    (rho < 0 ∧ config.Decayed elapsed ∧ config.Decayed elapsed')

end ZenoConfig

namespace ZenoFintonController
variable {self : ZenoFintonController} {clock : Clock}

/-! ## Comparing gains -/

theorem computeKappa_eq_iff {now now' : ℝ} :
    self.computeKappa now' = self.computeKappa now ↔
      self.config.kappa0 = 0 ∨ self.config.alpha = 0 ∨
        self.elapsedSeconds now = self.elapsedSeconds now' := by
  rw [computeKappa, computeKappa, mul_eq_mul_left_iff, Real.exp_eq_exp, mul_eq_mul_left_iff,
    neg_eq_zero]
  tauto

theorem computeKappa_eq_exp {now : ℝ} (positive : 0 < self.config.kappa0) :
    self.computeKappa now =
      Real.exp (Real.log self.config.kappa0 - self.config.alpha * self.elapsedSeconds now) := by
  rw [computeKappa, sub_eq_add_neg, Real.exp_add, Real.exp_log positive, neg_mul]

theorem computeKappa_nonpos {now : ℝ} (negative : self.config.kappa0 ≤ 0) :
    self.computeKappa now ≤ 0 :=
  mul_nonpos_of_nonpos_of_nonneg negative (Real.exp_pos _).le

theorem one_le_computeKappa_iff {now : ℝ} :
    1 ≤ self.computeKappa now ↔ self.config.Saturated (self.elapsedSeconds now) := by
  rw [ZenoConfig.Saturated]
  rcases lt_or_ge 0 self.config.kappa0 with positive | negative
  · rw [computeKappa_eq_exp positive, Real.one_le_exp_iff, sub_nonneg]
    exact ⟨fun decay => ⟨positive, decay⟩, fun saturated => saturated.2⟩
  · have small : self.computeKappa now ≤ 0 := computeKappa_nonpos negative
    constructor
    · intro large
      linarith
    · intro saturated
      exact absurd saturated.1 negative.not_gt

theorem computeKappa_le_one_iff {now : ℝ} :
    self.computeKappa now ≤ 1 ↔ self.config.Decayed (self.elapsedSeconds now) := by
  rw [ZenoConfig.Decayed]
  rcases lt_or_ge 0 self.config.kappa0 with positive | negative
  · rw [computeKappa_eq_exp positive, Real.exp_le_one_iff, sub_nonpos]
    exact ⟨.inr, fun decayed => decayed.resolve_left positive.not_ge⟩
  · have small : self.computeKappa now ≤ 0 := computeKappa_nonpos negative
    exact ⟨fun _ => .inl negative, fun _ => by linarith⟩

/-! ## Comparing drifts -/

theorem max_zero_eq_iff {a b : ℝ} : max 0 a = max 0 b ↔ a = b ∨ a ≤ 0 ∧ b ≤ 0 := by
  constructor
  · intro same
    rcases le_total a 0 with clamped | kept
    · rw [max_eq_left clamped] at same
      exact .inr ⟨clamped, max_eq_left_iff.mp same.symm⟩
    · rcases le_total b 0 with clamped' | kept'
      · rw [max_eq_left clamped'] at same
        exact .inr ⟨max_eq_left_iff.mp same, clamped'⟩
      · rw [max_eq_right kept, max_eq_right kept'] at same
        exact .inl same
  · rintro (rfl | ⟨clamped, clamped'⟩)
    · rfl
    · rw [max_eq_left clamped, max_eq_left clamped']

theorem attenuated_nonpos_iff {now rho : ℝ} (nonzero : rho ≠ 0) :
    rho * (1 - self.computeKappa now) ≤ 0 ↔
      (0 < rho ∧ 1 ≤ self.computeKappa now) ∨ (rho < 0 ∧ self.computeKappa now ≤ 1) := by
  rw [mul_nonpos_iff, sub_nonpos, sub_nonneg, nonzero.symm.le_iff_lt, nonzero.le_iff_lt]

theorem applyGain_eq_iff {now now' rho : ℝ} :
    self.applyGain now' rho = self.applyGain now rho ↔
      self.config.Insensitive rho (self.elapsedSeconds now) (self.elapsedSeconds now') := by
  rw [applyGain, applyGain, max_zero_eq_iff, mul_eq_mul_left_iff, sub_right_inj,
    computeKappa_eq_iff, ZenoConfig.Insensitive]
  by_cases nonzero : rho = 0
  · simp [nonzero]
  · rw [attenuated_nonpos_iff nonzero, attenuated_nonpos_iff nonzero, one_le_computeKappa_iff,
      one_le_computeKappa_iff, computeKappa_le_one_iff, computeKappa_le_one_iff]
    have sign : ¬ (0 < rho ∧ rho < 0) := fun both => lt_asymm both.1 both.2
    tauto

/-! ## One step -/

theorem step_gain {state : ManifoldState} (stable : ¬ Unstable self.config state) (tick : ℕ) :
    (self.step clock tick state).1.rawRho = state.rho ∧
      (self.step clock tick state).1.kappa = self.computeKappa (clock tick) ∧
      (self.step clock tick state).1.attenuatedRho =
        self.applyGain (clock (tick + 1)) state.rho := by
  rw [Unstable, not_or] at stable
  simp only [step, if_neg stable.1, if_neg stable.2]
  repeat' split
  all_goals exact ⟨rfl, rfl, rfl⟩

/-- The result of a step that applied its gain is consistent exactly if the time between the two
readings does not matter. -/
theorem step_consistent_iff {state : ManifoldState} (stable : ¬ Unstable self.config state)
    (tick : ℕ) :
    Consistent (self.step clock tick state).1 ↔
      self.config.Insensitive state.rho (self.elapsedSeconds (clock tick))
        (self.elapsedSeconds (clock (tick + 1))) := by
  obtain ⟨raw, gain, attenuated⟩ := @step_gain self clock state stable tick
  rw [Consistent, raw, gain, attenuated]
  exact applyGain_eq_iff

theorem stable_defaults : ¬ Unstable ZenoConfig.defaults ⟨1, 0, 0⟩ := by
  norm_num [Unstable, ZenoConfig.defaults]

theorem step_consistent_iff_still :
    Consistent ((new .defaults 0).step (fun _ => 0) 1 ⟨1, 0, 0⟩).1 := by
  apply (step_consistent_iff stable_defaults 1).mpr
  exact .inr (.inr (.inr (.inl rfl)))

/-- With a second between the readings, the default configuration reports `e^(-0.1)` and applies
`e^(-0.2)`. -/
theorem step_inconsistent :
    ¬ Unstable ZenoConfig.defaults ⟨1, 0, 0⟩ ∧ Monotone (fun n : ℕ => (n : ℝ)) ∧
      ¬ Consistent ((new .defaults 0).step (fun n => n) 1 ⟨1, 0, 0⟩).1 := by
  refine ⟨stable_defaults, Nat.mono_cast, ?_⟩
  obtain ⟨raw, gain, attenuated⟩ :=
    @step_gain (new .defaults 0) (fun n => n) ⟨1, 0, 0⟩ stable_defaults 1
  rw [Consistent, raw, gain, attenuated]
  apply applyGain_eq_iff.not.mpr
  norm_num [ZenoConfig.Insensitive, ZenoConfig.Saturated, ZenoConfig.defaults, elapsedSeconds, new]

end ZenoFintonController
end
end SovereignPirtm.Controller
