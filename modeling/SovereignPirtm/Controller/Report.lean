import SovereignPirtm.Library.FixedPoint
import SovereignPirtm.Controller.ZenoFinton

/-!
# Reports of the controller

The results as JSON: whatever a step of a run measured, its report can be read back, with the numbers
rounded to six decimals.
-/

namespace SovereignPirtm.Controller
open Library ZenoFintonController

noncomputable section

def formatAction : ControllerAction → Bytes
  | .continue => str "CONTINUE"
  | .warning => str "WARNING"
  | .kill => str "KILL"
  | .error => str "ERROR"

def resultToJson (result : ControllerResult) : Bytes :=
  str "\x7b\"action\":\"" ++ formatAction result.action ++ str "\"" ++
    str ",\"raw_rho\":" ++ fixed6 result.rawRho ++
    str ",\"attenuated_rho\":" ++ fixed6 result.attenuatedRho ++
    str ",\"kappa\":" ++ fixed6 result.kappa ++
    str ",\"message\":\"" ++ result.message ++ str "\"\x7d"

/-! ## Rounding -/

theorem roundHalfEven_error {x : ℝ} (positive : 0 ≤ x) : |(roundHalfEven x : ℝ) - x| ≤ 1 / 2 := by
  have below : (⌊x⌋₊ : ℝ) ≤ x := Nat.floor_le positive
  have above : x < ⌊x⌋₊ + 1 := Nat.lt_floor_add_one x
  rw [abs_le, roundHalfEven]
  split
  · constructor <;> linarith
  · split
    · push_cast
      constructor <;> linarith
    · have half : x - ⌊x⌋₊ = 1 / 2 := by linarith
      have even : ((⌊x⌋₊ % 2 : ℕ) : ℝ) = 0 ∨ ((⌊x⌋₊ % 2 : ℕ) : ℝ) = 1 := by
        rcases Nat.mod_two_eq_zero_or_one ⌊x⌋₊ with parity | parity <;> simp [parity]
      push_cast at even ⊢
      rcases even with zero | one
      · rw [zero]
        constructor <;> linarith
      · rw [one]
        constructor <;> linarith

def sixPlaces (x : ℝ) : ℚ :=
  Json.fixedValue (decide (x < 0)) 6 (roundHalfEven (|x| * (1000000 : ℕ)))

theorem fixed6_eq (x : ℝ) :
    fixed6 x = Json.fixedPoint (decide (x < 0)) 6 (roundHalfEven (|x| * (1000000 : ℕ))) := by
  by_cases negative : x < 0
  · simp [fixed6, Json.fixedPoint, negative]
  · simp [fixed6, Json.fixedPoint, negative]

theorem sixPlaces_error (x : ℝ) : |(sixPlaces x : ℝ) - x| ≤ 1 / 2000000 := by
  have error := roundHalfEven_error (mul_nonneg (abs_nonneg x) (Nat.cast_nonneg 1000000))
  rw [abs_le] at error ⊢
  by_cases negative : x < 0
  · simp only [sixPlaces, Json.fixedValue, negative, decide_true, if_true]
    rw [abs_of_neg negative] at error ⊢
    push_cast
    constructor <;> linarith
  · simp only [sixPlaces, Json.fixedValue, negative, decide_false, Bool.false_eq_true, if_false]
    rw [abs_of_nonneg (not_lt.mp negative)] at error ⊢
    push_cast
    constructor <;> linarith

theorem value_fixed6 (x : ℝ) : Json.Value (fixed6 x) (.number (sixPlaces x)) := by
  rw [fixed6_eq]
  exact .number (Json.numberText_fixedPoint _ (by decide) _)

/-! ## Messages -/

theorem plain_fixed6 (x : ℝ) : Json.Plain (fixed6 x) := by
  rw [fixed6_eq]
  exact Json.plain_fixedPoint _ _ _

theorem plain_threshold {label : Bytes} (plain : Json.Plain label) (x y : ℝ) :
    Json.Plain (label ++ fixed6 x ++ str " >= " ++ fixed6 y) := by
  have least : Json.Ascii (str " >= ") := by decide
  exact ((plain.append (plain_fixed6 x)).append (Json.plain_of_ascii least)).append (plain_fixed6 y)

theorem plain_message (self : ZenoFintonController) (clock : Clock) (tick : ℕ)
    (state : ManifoldState) : Json.Plain (self.step clock tick state).1.message := by
  have stability : Json.Plain (str "Finton stability violation: λL = ") :=
    Json.plain_str (by decide)
  have drift : Json.Plain (str "Liquidity pool drift exceeded: δ = ") := Json.plain_str (by decide)
  have halt : Json.Plain (str "Halt threshold exceeded: ρ = ") := Json.plain_str (by decide)
  have warn : Json.Plain (str "Drift warning: ρ = ") := Json.plain_str (by decide)
  have bounds : Json.Ascii (str "Drift within bounds") := by decide
  have one : Json.Ascii (str " >= 1.0") := by decide
  simp only [step]
  split_ifs
  · exact (stability.append (plain_fixed6 _)).append (Json.plain_of_ascii one)
  · exact plain_threshold drift _ _
  · exact plain_threshold halt _ _
  · exact plain_threshold warn _ _
  · exact Json.plain_of_ascii bounds

theorem plain_formatAction (action : ControllerAction) : Json.Plain (formatAction action) := by
  apply Json.plain_of_ascii
  cases action <;> decide

/-! ## The report -/

def reportFields (result : ControllerResult) : List Json.Field :=
  [⟨str "action", Json.quoted (formatAction result.action), .string (formatAction result.action)⟩,
    ⟨str "raw_rho", fixed6 result.rawRho, .number (sixPlaces result.rawRho)⟩,
    ⟨str "attenuated_rho", fixed6 result.attenuatedRho, .number (sixPlaces result.attenuatedRho)⟩,
    ⟨str "kappa", fixed6 result.kappa, .number (sixPlaces result.kappa)⟩,
    ⟨str "message", Json.quoted result.message, .string result.message⟩]

theorem resultToJson_eq (result : ControllerResult) :
    resultToJson result = Json.objectText (reportFields result) := by
  have action : str "\x7b\"action\":\"" = 0x7b :: 0x22 :: str "action" ++ [0x22, 0x3a, 0x22] := by
    decide
  have raw : str ",\"raw_rho\":" = 0x2c :: 0x22 :: str "raw_rho" ++ [0x22, 0x3a] := by decide
  have attenuated : str ",\"attenuated_rho\":" =
      0x2c :: 0x22 :: str "attenuated_rho" ++ [0x22, 0x3a] := by decide
  have kappa : str ",\"kappa\":" = 0x2c :: 0x22 :: str "kappa" ++ [0x22, 0x3a] := by decide
  have message : str ",\"message\":\"" = 0x2c :: 0x22 :: str "message" ++ [0x22, 0x3a, 0x22] := by
    decide
  have close : str "\"\x7d" = [0x22, 0x7d] := by decide
  have quote : str "\"" = [0x22] := by decide
  simp [resultToJson, reportFields, Json.objectText, Json.joined, Json.Field.written, Json.quoted,
    action, raw, attenuated, kappa, message, close, quote]

theorem carries_resultToJson {result : ControllerResult} (plain : Json.Plain result.message) :
    Json.Carries (resultToJson result)
      ((reportFields result).map fun f => (f.name, f.value)) := by
  rw [resultToJson_eq]
  apply Json.carries_objectText
  · simp only [reportFields, List.map_cons, List.map_nil]
    decide
  · have name : ∀ name ∈ [str "action", str "raw_rho", str "attenuated_rho", str "kappa",
        str "message"], Json.Plain name := by
      have ascii : ∀ name ∈ [str "action", str "raw_rho", str "attenuated_rho", str "kappa",
          str "message"], Json.Ascii name := by decide
      exact fun name member => Json.plain_of_ascii (ascii name member)
    simp only [List.forall_mem_cons] at name
    obtain ⟨action, raw, attenuated, kappa, message, -⟩ := name
    simp only [reportFields, List.forall_mem_cons]
    exact ⟨⟨action, .string (Json.chars_of_plain (plain_formatAction _))⟩, ⟨raw, value_fixed6 _⟩,
      ⟨attenuated, value_fixed6 _⟩, ⟨kappa, value_fixed6 _⟩,
      ⟨message, .string (Json.chars_of_plain plain)⟩, List.forall_mem_nil _⟩

theorem made_result {self : ZenoFintonController} {clock : Clock} {tick epoch : ℕ}
    {calls : List Call} {made : Made} (member : made ∈ runFrom clock self tick epoch calls) :
    ∃ (c : ZenoFintonController) (tick : ℕ), made.result = (c.step clock tick made.state).1 := by
  induction calls generalizing self tick epoch with
  | nil => exact absurd member List.not_mem_nil
  | cons call calls ih =>
      cases call with
      | step state =>
          rcases List.mem_cons.mp member with rfl | member
          · exact ⟨self, tick, rfl⟩
          · exact ih member
      | reset => exact ih member

/-- Every report of a run is JSON with its fields in it, each number to half a millionth. -/
theorem run_reports (clock : Clock) (config : ZenoConfig) (calls : List Call) :
    ∀ made ∈ run clock config calls, ∃ raw attenuated kappa : ℚ,
      |(raw : ℝ) - made.state.rho| ≤ 1 / 2000000 ∧
      |(attenuated : ℝ) - made.result.attenuatedRho| ≤ 1 / 2000000 ∧
      |(kappa : ℝ) - made.result.kappa| ≤ 1 / 2000000 ∧
      Json.Carries (resultToJson made.result)
        [(str "action", .string (formatAction made.result.action)), (str "raw_rho", .number raw),
          (str "attenuated_rho", .number attenuated), (str "kappa", .number kappa),
          (str "message", .string made.result.message)] := by
  intro made member
  obtain ⟨c, tick, returned⟩ := made_result member
  have raw : made.result.rawRho = made.state.rho := by
    rw [returned]
    simp only [step]
    split_ifs <;> rfl
  rw [← raw]
  exact ⟨_, _, _, sixPlaces_error _, sixPlaces_error _, sixPlaces_error _,
    carries_resultToJson (returned ▸ plain_message c clock tick made.state)⟩

theorem run_reports_single : ∃ made raw attenuated kappa,
    made ∈ run (fun _ => 0) .defaults [.step ⟨2, 0, 1 / 2⟩] ∧
      Json.Carries (resultToJson made.result)
        [(str "action", .string (formatAction made.result.action)), (str "raw_rho", .number raw),
          (str "attenuated_rho", .number attenuated), (str "kappa", .number kappa),
          (str "message", .string made.result.message)] := by
  have member : (new .defaults 0).made (fun _ => 0) 1 0 ⟨2, 0, 1 / 2⟩ ∈
      run (fun _ => 0) .defaults [.step ⟨2, 0, 1 / 2⟩] := List.mem_cons_self
  obtain ⟨raw, attenuated, kappa, -, -, -, carries⟩ := run_reports _ _ _ _ member
  exact ⟨_, raw, attenuated, kappa, member, carries⟩

end
end SovereignPirtm.Controller
