import SovereignPirtm.Library.Script
import SovereignPirtm.Contractivity.Sha256

/-!
# The bridge to the prover

`LeanFFIBridge` as a script: the file system, the shell, the clock and the prover's process are its
environment. A path or a command is the byte string that the source hands over; how the shell reads a
command, and whether it starts the prover at all, is up to the environment.
-/

namespace SovereignPirtm.Bridge
open Library Contractivity

/-! ## The environment -/

inductive Query where
  | fileExists (path : Bytes)
  | system (command : Bytes)
  | popen (command : Bytes)
  | readFile (path : Bytes)
  | tmpnam
  | writeFile (path content : Bytes)
  | remove (path : Bytes)
  | now

/-- `popen` fails, or the process writes its output and ends with a status. A file is written or not.
The two calls of `std::filesystem` fail with an exception. -/
abbrev Query.Answer : Query → Type
  | fileExists _ => Option Bool
  | system _ => Int
  | popen _ => Option (Bytes × Int)
  | readFile _ => Bytes
  | tmpnam => Bytes
  | writeFile _ _ => Bool
  | remove _ => Option Bool
  | now => UInt64

abbrev Effect := Script Query.Answer

def ask (q : Query) : Effect q.Answer := Script.query q

def orRaise {α : Type} : Option α → Effect α
  | none => .raise
  | some a => pure a

structure LeanProofResult where
  verified : Bool
  hash : Bytes
  errorMsg : Bytes
  timestampNs : UInt64

structure LeanConfig where
  leanExecutable : Bytes
  failClosed : Bool

def LeanConfig.defaults : LeanConfig := { leanExecutable := str "lean", failClosed := true }

/-! ## Reading the output of a process -/

/-- What `fgets` stores in a buffer with that much room for characters, and what it leaves: it stops
behind a newline. -/
def fgets : Nat → Bytes → Bytes × Bytes
  | 0, stream => ([], stream)
  | _ + 1, [] => ([], [])
  | room + 1, b :: stream =>
      if b = charByte '\n' then ([b], stream)
      else
        let (line, rest) := fgets room stream
        (b :: line, rest)

/-- The string that a buffer holds. -/
def cString (buffer : Bytes) : Bytes := buffer.takeWhile (· ≠ 0)

theorem fgets_append (room : Nat) (stream : Bytes) :
    (fgets room stream).1 ++ (fgets room stream).2 = stream := by
  induction room, stream using fgets.induct with
  | case1 stream => rfl
  | case2 room => rfl
  | case3 room stream => simp [fgets]
  | case4 room b stream other line rest split ih =>
      rw [split] at ih
      rw [fgets, if_neg other, split]
      exact congrArg (b :: ·) ih

theorem fgets_shrinks {room : Nat} {stream : Bytes} (some_left : stream ≠ []) :
    (fgets (room + 1) stream).2.length < stream.length := by
  cases stream with
  | nil => exact absurd rfl some_left
  | cons b stream =>
      rw [fgets]
      split
      · simp
      · have whole := congrArg List.length (fgets_append room stream)
        rw [List.length_append] at whole
        simp only [List.length_cons]
        omega

/-- `while (fgets(buffer, sizeof(buffer), pipe)) result += buffer;` -/
def readAll (stream : Bytes) : Bytes :=
  if stream = [] then []
  else cString (fgets 4095 stream).1 ++ readAll (fgets 4095 stream).2
termination_by stream.length
decreasing_by exact fgets_shrinks ‹_›

/-! ## The bridge -/

def versionCommand (config : LeanConfig) : Bytes :=
  config.leanExecutable ++ str " --version > /dev/null 2>&1"

def runCommand (config : LeanConfig) (path : Bytes) : Bytes :=
  config.leanExecutable ++ str " --run " ++ path ++ str " 2>&1"

def isLeanAvailable (config : LeanConfig) : Effect Bool := do
  let ret ← ask (.system (versionCommand config))
  return ret == 0

def runLean (config : LeanConfig) (path : Bytes) : Effect (Option Bytes) := do
  match ← ask (.popen (runCommand config path)) with
  | none => return none
  | some (stream, status) =>
      if status ≠ 0 then return none
      return some (readAll stream)

def runLeanInline (config : LeanConfig) (code : Bytes) : Effect (Option Bytes) := do
  let name ← ask .tmpnam
  let path := name ++ str ".lean"
  -- the state of the stream is not looked at
  let _ ← ask (.writeFile path code)
  let result ← runLean config path
  let _ ← orRaise (← ask (.remove path))
  return result

def computeProofHash (proofOutput : Bytes) : Bytes := sha256Hex proofOutput

def notFound (path : Bytes) : Bytes := str "Lean file not found: " ++ path

def notAvailable : Bytes := str "Lean not available (fail-closed mode)"

def verified (timestampNs : UInt64) (hash : Bytes) : LeanProofResult :=
  { verified := true, hash := hash, errorMsg := [], timestampNs := timestampNs }

def failed (timestampNs : UInt64) (errorMsg : Bytes) : LeanProofResult :=
  { verified := false, hash := sha256Hex errorMsg, errorMsg := errorMsg, timestampNs := timestampNs }

def verifyProof (config : LeanConfig) (path : Bytes) : Effect LeanProofResult := do
  let timestampNs ← ask .now
  let found ← orRaise (← ask (.fileExists path))
  if !found then return failed timestampNs (notFound path)
  if !(← isLeanAvailable config) then
    if config.failClosed then return failed timestampNs notAvailable
    let content ← ask (.readFile path)
    return verified timestampNs (sha256Hex content)
  match ← runLean config path with
  | some output => return verified timestampNs (computeProofHash output)
  | none => return failed timestampNs (str "Lean verification failed")

def verifyInline (config : LeanConfig) (code : Bytes) : Effect LeanProofResult := do
  let timestampNs ← ask .now
  if !(← isLeanAvailable config) then
    if config.failClosed then return failed timestampNs notAvailable
    return verified timestampNs (sha256Hex code)
  match ← runLeanInline config code with
  | some output => return verified timestampNs (computeProofHash output)
  | none => return failed timestampNs (str "Lean inline verification failed")

/-! ## Sessions -/

inductive Call where
  | verifyProof (path : Bytes)
  | verifyInline (code : Bytes)

def call (config : LeanConfig) : Call → Effect LeanProofResult
  | .verifyProof path => verifyProof config path
  | .verifyInline code => verifyInline config code

/-- Calls of one bridge, one after the other, up to an exception. -/
def session (config : LeanConfig) (calls : List Call) : Effect (List LeanProofResult) :=
  Script.each (call config) calls

end SovereignPirtm.Bridge
