import SovereignPirtm.Library.Text
import Mathlib.Analysis.SpecialFunctions.Exp

/-!
# The Zeno-Finton controller

Doubles are real numbers. The steady clock is the sequence of its readings in seconds: the call of
`now` that comes after `tick` others returns `clock tick`.
-/

namespace SovereignPirtm.Controller
open Library

abbrev Clock := ℕ → ℝ

noncomputable section

structure ZenoConfig where
  kappa0 : ℝ
  alpha : ℝ
  rhoWarn : ℝ
  rhoHalt : ℝ
  deltaMax : ℝ

def ZenoConfig.defaults : ZenoConfig :=
  { kappa0 := 1, alpha := 0.1, rhoWarn := 0.85, rhoHalt := 1, deltaMax := 1e-4 }

structure ManifoldState where
  rho : ℝ
  delta : ℝ
  lambdaLProduct : ℝ

inductive ControllerAction where
  | «continue» | warning | kill | error
deriving DecidableEq

structure ControllerResult where
  action : ControllerAction
  rawRho : ℝ
  attenuatedRho : ℝ
  kappa : ℝ
  message : Bytes

/-! ## Printed numbers -/

def roundHalfEven (x : ℝ) : ℕ :=
  if x - ⌊x⌋₊ < 1 / 2 then ⌊x⌋₊
  else if 1 / 2 < x - ⌊x⌋₊ then ⌊x⌋₊ + 1
  else ⌊x⌋₊ + ⌊x⌋₊ % 2

/-- `std::fixed << std::setprecision(6)` -/
def fixed6 (x : ℝ) : Bytes :=
  let millionths := roundHalfEven (|x| * 1000000)
  (if x < 0 then str "-" else []) ++ decimal (millionths / 1000000) ++ str "." ++
    (fixedDigits 10 6 millionths).map charByte

/-! ## The controller -/

structure ZenoFintonController where
  config : ZenoConfig
  startTime : ℝ

namespace ZenoFintonController

def new (config : ZenoConfig) (now : ℝ) : ZenoFintonController := ⟨config, now⟩

def elapsedSeconds (self : ZenoFintonController) (now : ℝ) : ℝ := now - self.startTime

def computeKappa (self : ZenoFintonController) (now : ℝ) : ℝ :=
  self.config.kappa0 * Real.exp (-self.config.alpha * self.elapsedSeconds now)

def applyGain (self : ZenoFintonController) (now rawRho : ℝ) : ℝ :=
  let kappa := self.computeKappa now
  let attenuated := rawRho * (1 - kappa)
  max 0 attenuated

/-- The result, and the number of clock readings taken so far. -/
def step (self : ZenoFintonController) (clock : Clock) (tick : ℕ) (state : ManifoldState) :
    ControllerResult × ℕ :=
  let kappa := self.computeKappa (clock tick)
  if state.lambdaLProduct ≥ 1 then
    ({ action := .kill, rawRho := state.rho, attenuatedRho := state.rho, kappa := kappa,
       message := str "Finton stability violation: λL = " ++ fixed6 state.lambdaLProduct ++
         str " >= 1.0" }, tick + 1)
  else if state.delta ≥ self.config.deltaMax then
    ({ action := .kill, rawRho := state.rho, attenuatedRho := state.rho, kappa := kappa,
       message := str "Liquidity pool drift exceeded: δ = " ++ fixed6 state.delta ++
         str " >= " ++ fixed6 self.config.deltaMax }, tick + 1)
  else
    -- reads the clock a second time: not always the gain reported as `kappa`
    let attenuated := self.applyGain (clock (tick + 1)) state.rho
    if attenuated ≥ self.config.rhoHalt then
      ({ action := .kill, rawRho := state.rho, attenuatedRho := attenuated, kappa := kappa,
         message := str "Halt threshold exceeded: ρ = " ++ fixed6 attenuated ++
           str " >= " ++ fixed6 self.config.rhoHalt }, tick + 2)
    else if attenuated ≥ self.config.rhoWarn then
      ({ action := .warning, rawRho := state.rho, attenuatedRho := attenuated, kappa := kappa,
         message := str "Drift warning: ρ = " ++ fixed6 attenuated ++
           str " >= " ++ fixed6 self.config.rhoWarn }, tick + 2)
    else
      ({ action := .continue, rawRho := state.rho, attenuatedRho := attenuated, kappa := kappa,
         message := str "Drift within bounds" }, tick + 2)

def reset (self : ZenoFintonController) (now : ℝ) : ZenoFintonController :=
  { self with startTime := now }

end ZenoFintonController

/-! ## Runs of one controller -/

inductive Call where
  | step (state : ManifoldState)
  | reset

/-- A call of `step` in a run: the number of resets before it, its first and its last reading of
the clock, and what it was given and returned. -/
structure Made where
  epoch : ℕ
  began : ℝ
  ended : ℝ
  state : ManifoldState
  result : ControllerResult

namespace ZenoFintonController

def made (self : ZenoFintonController) (clock : Clock) (tick epoch : ℕ) (state : ManifoldState) :
    Made :=
  { epoch := epoch, began := clock tick, ended := clock ((self.step clock tick state).2 - 1),
    state := state, result := (self.step clock tick state).1 }

def runFrom (clock : Clock) : ZenoFintonController → (tick epoch : ℕ) → List Call → List Made
  | _, _, _, [] => []
  | self, tick, epoch, .step state :: calls =>
      self.made clock tick epoch state ::
        runFrom clock self (self.step clock tick state).2 epoch calls
  | self, tick, epoch, .reset :: calls =>
      runFrom clock (self.reset (clock tick)) (tick + 1) (epoch + 1) calls

def run (clock : Clock) (config : ZenoConfig) (calls : List Call) : List Made :=
  runFrom clock (new config (clock 0)) 1 0 calls

end ZenoFintonController
end
end SovereignPirtm.Controller
