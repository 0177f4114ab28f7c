import SovereignPirtm.Bridge.LeanFFI
import Mathlib.Data.List.TakeWhile

/-!
# What a verdict of the bridge rests on

The runs of the two calls, whatever the file system, the shell and the prover answer, and what holds
of every session: what a verified result is evidence of, which commands are handed to the shell, and
that the removal of the temporary files is asked for.
-/

namespace SovereignPirtm.Bridge
open Library Contractivity Script

abbrev Trace := List (Event Query.Answer)

/-! ## The prover's output -/

theorem cString_eq_self_iff {buffer : Bytes} : cString buffer = buffer ↔ 0 ∉ buffer := by
  rw [cString, List.takeWhile_eq_self_iff]
  constructor
  · intro kept member
    simpa using kept 0 member
  · intro absent b member
    simpa using fun zero : b = 0 => absent (zero ▸ member)

theorem cString_length_le (buffer : Bytes) : (cString buffer).length ≤ buffer.length :=
  (List.takeWhile_prefix _).length_le

theorem readAll_of_ne {stream : Bytes} (some_left : stream ≠ []) :
    readAll stream = cString (fgets 4095 stream).1 ++ readAll (fgets 4095 stream).2 := by
  rw [readAll, if_neg some_left]

theorem readAll_length_le (stream : Bytes) : (readAll stream).length ≤ stream.length := by
  induction stream using readAll.induct with
  | case1 => simp [readAll]
  | case2 stream some_left ih =>
      have whole := congrArg List.length (fgets_append 4095 stream)
      have line := cString_length_le (fgets 4095 stream).1
      rw [List.length_append] at whole
      rw [readAll_of_ne some_left, List.length_append]
      omega

theorem readAll_eq_self_iff (stream : Bytes) : readAll stream = stream ↔ 0 ∉ stream := by
  induction stream using readAll.induct with
  | case1 => simp [readAll]
  | case2 stream some_left ih =>
      have whole := fgets_append 4095 stream
      have parts : readAll stream = stream ↔ cString (fgets 4095 stream).1 = (fgets 4095 stream).1 ∧
          readAll (fgets 4095 stream).2 = (fgets 4095 stream).2 := by
        rw [readAll_of_ne some_left]
        constructor
        · intro same
          have split := same.trans whole.symm
          have size := congrArg List.length split
          have line := cString_length_le (fgets 4095 stream).1
          have rest := readAll_length_le (fgets 4095 stream).2
          rw [List.length_append, List.length_append] at size
          exact List.append_inj split (by omega)
        · rintro ⟨line, rest⟩
          rw [line, rest, whole]
      rw [parts, cString_eq_self_iff, ih, ← not_or, ← List.mem_append, whole]

/-! ## Runs of the two calls -/

section Runs
variable {config : LeanConfig} {events : Trace}

/-- What becomes of the answer to the command for a file. -/
inductive Ran (config : LeanConfig) (path : Bytes) : Option (Bytes × Int) → Option Bytes → Prop
  | unstarted : Ran config path none none
  | refused {output : Bytes} {status : Int} : status ≠ 0 → Ran config path (some (output, status)) none
  | accepted (output : Bytes) : Ran config path (some (output, 0)) (some (readAll output))

section Parts
variable {α : Type} {out : Option α}

theorem ask_bind {q : Query} {f : q.Answer → Effect α} (ran : (ask q >>= f).Run events out) :
    ∃ answer rest, events = ⟨q, answer⟩ :: rest ∧ (f answer).Run rest out :=
  run_query_bind_iff.mp ran

theorem orRaise_bind {β : Type} {o : Option β} {f : β → Effect α}
    (ran : (orRaise o >>= f).Run events out) :
    (o = none ∧ events = [] ∧ out = none) ∨ ∃ b, o = some b ∧ (f b).Run events out := by
  cases o with
  | none => exact .inl ⟨rfl, ran⟩
  | some b => exact .inr ⟨b, rfl, ran⟩

theorem isLeanAvailable_bind {f : Bool → Effect α}
    (ran : (isLeanAvailable config >>= f).Run events out) :
    ∃ (status : Int) (rest : Trace), events = ⟨.system (versionCommand config), status⟩ :: rest ∧
      (f (status == 0)).Run rest out :=
  run_query_bind_iff.mp ran

theorem runLean_bind {path : Bytes} {f : Option Bytes → Effect α}
    (ran : ( runLean config path >>= f).Run events out) : ∃ answer result rest,
      events = ⟨.popen (runCommand config path), answer⟩ :: rest ∧ Ran config path answer result ∧
        (f result).Run rest out := by
  obtain ⟨answer, rest, rfl, later⟩ := run_query_bind_iff.mp ran
  cases answer with
  | none => exact ⟨none, none, rest, rfl, .unstarted, later⟩
  | some answer =>
      obtain ⟨output, status⟩ := answer
      by_cases zero : status = 0
      · subst zero
        exact ⟨_, _, rest, rfl, .accepted output, later⟩
      · refine ⟨_, none, rest, rfl, .refused zero, ?_⟩
        change ((if status ≠ 0 then pure none else pure (some (readAll output)) : Effect _) >>= f).Run
          rest out at later
        rwa [if_pos zero] at later

/-- The write of the temporary file is asked for before the command and its removal after it, whatever
the answers. -/
theorem runLeanInline_bind {code : Bytes} {f : Option Bytes → Effect α}
    (ran : (runLeanInline config code >>= f).Run events out) :
    ∃ (name : Bytes) (stored : Bool) (answer : Option (Bytes × Int)) (result : Option Bytes)
      (removed : Option Bool) (rest : Trace),
      events = ⟨.tmpnam, name⟩ :: ⟨.writeFile (name ++ str ".lean") code, stored⟩ ::
        ⟨.popen (runCommand config (name ++ str ".lean")), answer⟩ ::
        ⟨.remove (name ++ str ".lean"), removed⟩ :: rest ∧
      Ran config (name ++ str ".lean") answer result ∧
      ((removed = none ∧ rest = [] ∧ out = none) ∨ removed ≠ none ∧ (f result).Run rest out) := by
  rw [runLeanInline, bind_bind] at ran
  obtain ⟨name, _, rfl, named⟩ := ask_bind ran
  rw [bind_bind] at named
  obtain ⟨stored, _, rfl, written⟩ := ask_bind named
  rw [bind_bind] at written
  obtain ⟨answer, result, _, rfl, answered, finished⟩ := runLean_bind written
  rw [bind_bind] at finished
  obtain ⟨removed, rest, rfl, cleaned⟩ := ask_bind finished
  rw [bind_bind] at cleaned
  refine ⟨name, stored, answer, result, removed, rest, rfl, answered, ?_⟩
  rcases orRaise_bind cleaned with ⟨rfl, rfl, rfl⟩ | ⟨_, rfl, last⟩
  · exact .inl ⟨rfl, rfl, rfl⟩
  · exact .inr ⟨Option.some_ne_none _, last⟩

end Parts

inductive ProofRun (config : LeanConfig) (path : Bytes) : Trace → Option LeanProofResult → Prop
  | unreadable (t : UInt64) : ProofRun config path [⟨.now, t⟩, ⟨.fileExists path, none⟩] none
  | absent (t : UInt64) : ProofRun config path [⟨.now, t⟩, ⟨.fileExists path, some false⟩]
      (some (failed t (notFound path)))
  | closed (t : UInt64) {status : Int} : status ≠ 0 → config.failClosed = true →
      ProofRun config path [⟨.now, t⟩, ⟨.fileExists path, some true⟩,
        ⟨.system (versionCommand config), status⟩] (some (failed t notAvailable))
  | unproved (t : UInt64) {status : Int} (content : Bytes) : status ≠ 0 → config.failClosed = false →
      ProofRun config path [⟨.now, t⟩, ⟨.fileExists path, some true⟩,
        ⟨.system (versionCommand config), status⟩, ⟨.readFile path, content⟩]
        (some (verified t (sha256Hex content)))
  | rejected (t : UInt64) {answer : Option (Bytes × Int)} : Ran config path answer none →
      ProofRun config path [⟨.now, t⟩, ⟨.fileExists path, some true⟩,
        ⟨.system (versionCommand config), (0 : Int)⟩, ⟨.popen (runCommand config path), answer⟩]
        (some (failed t (str "Lean verification failed")))
  | proved (t : UInt64) (output : Bytes) :
      ProofRun config path [⟨.now, t⟩, ⟨.fileExists path, some true⟩,
        ⟨.system (versionCommand config), (0 : Int)⟩,
        ⟨.popen (runCommand config path), some (output, (0 : Int))⟩]
        (some (verified t (sha256Hex (readAll output))))

theorem verifyProof_run {path : Bytes} {out : Option LeanProofResult}
    (ran : (verifyProof config path).Run events out) : ProofRun config path events out := by
  obtain ⟨t, _, rfl, timed⟩ := ask_bind ran
  obtain ⟨answer, _, rfl, looked⟩ := ask_bind timed
  rcases orRaise_bind looked with ⟨rfl, rfl, rfl⟩ | ⟨found, rfl, known⟩
  · exact .unreadable t
  · cases found with
    | false =>
        obtain ⟨rfl, rfl⟩ := known
        exact .absent t
    | true =>
        obtain ⟨status, _, rfl, checked⟩ := isLeanAvailable_bind known
        by_cases zero : status = 0
        · subst zero
          obtain ⟨answer, result, _, rfl, answered, last⟩ := runLean_bind checked
          cases answered with
          | accepted output =>
              obtain ⟨rfl, rfl⟩ := last
              exact .proved t output
          | unstarted =>
              obtain ⟨rfl, rfl⟩ := last
              exact .rejected t .unstarted
          | refused nonzero =>
              obtain ⟨rfl, rfl⟩ := last
              exact .rejected t (.refused nonzero)
        · have unavailable : (!(status == 0)) = true := by simpa using zero
          rw [if_pos unavailable] at checked
          by_cases closed : config.failClosed = true
          · rw [if_pos closed] at checked
            obtain ⟨rfl, rfl⟩ := checked
            exact .closed t zero closed
          · rw [if_neg closed] at checked
            obtain ⟨content, _, rfl, rfl, rfl⟩ := ask_bind checked
            exact .unproved t content zero (Bool.eq_false_of_not_eq_true closed)

inductive InlineRun (config : LeanConfig) (code : Bytes) : Trace → Option LeanProofResult → Prop
  | closed (t : UInt64) {status : Int} : status ≠ 0 → config.failClosed = true →
      InlineRun config code [⟨.now, t⟩, ⟨.system (versionCommand config), status⟩]
        (some (failed t notAvailable))
  | unproved (t : UInt64) {status : Int} : status ≠ 0 → config.failClosed = false →
      InlineRun config code [⟨.now, t⟩, ⟨.system (versionCommand config), status⟩]
        (some (verified t (sha256Hex code)))
  | ran (t : UInt64) (name : Bytes) (stored : Bool) {answer : Option (Bytes × Int)}
      {result : Option Bytes} (removed : Option Bool) :
      Ran config (name ++ str ".lean") answer result →
      InlineRun config code [⟨.now, t⟩, ⟨.system (versionCommand config), (0 : Int)⟩,
          ⟨.tmpnam, name⟩, ⟨.writeFile (name ++ str ".lean") code, stored⟩,
          ⟨.popen (runCommand config (name ++ str ".lean")), answer⟩,
          ⟨.remove (name ++ str ".lean"), removed⟩]
        (removed.map fun _ => match result with
          | some output => verified t (sha256Hex output)
          | none => failed t (str "Lean inline verification failed"))

theorem verifyInline_run {code : Bytes} {out : Option LeanProofResult}
    (ran : (verifyInline config code).Run events out) : InlineRun config code events out := by
  obtain ⟨t, _, rfl, timed⟩ := ask_bind ran
  obtain ⟨status, _, rfl, checked⟩ := isLeanAvailable_bind timed
  by_cases zero : status = 0
  · subst zero
    obtain ⟨name, stored, answer, result, removed, rest, rfl, answered, last⟩ :=
      runLeanInline_bind checked
    have whole : InlineRun config code _ _ := .ran t name stored removed answered
    rcases last with ⟨rfl, rfl, rfl⟩ | ⟨kept, last⟩
    · exact whole
    · obtain ⟨_, rfl⟩ := Option.ne_none_iff_exists'.mp kept
      cases result with
      | none =>
          obtain ⟨rfl, rfl⟩ := last
          exact whole
      | some output =>
          obtain ⟨rfl, rfl⟩ := last
          exact whole
  · have unavailable : (!(status == 0)) = true := by simpa using zero
    rw [if_pos unavailable] at checked
    by_cases closed : config.failClosed = true
    · rw [if_pos closed] at checked
      obtain ⟨rfl, rfl⟩ := checked
      exact .closed t zero closed
    · rw [if_neg closed] at checked
      obtain ⟨rfl, rfl⟩ := checked
      exact .unproved t zero (Bool.eq_false_of_not_eq_true closed)

end Runs

/-! ## Sessions -/

/-- The version command ended with 0, the write of the code was asked for, and the command for that
very file ended with 0; the hash is that of what it put out. -/
def Accepted (config : LeanConfig) (events : Trace) (hash : Bytes) : Call → Prop
  | .verifyProof path => ∃ output : Bytes,
      [⟨.fileExists path, some true⟩, ⟨.system (versionCommand config), (0 : Int)⟩,
        ⟨.popen (runCommand config path), some (output, (0 : Int))⟩] <:+: events ∧
      hash = sha256Hex (readAll output)
  | .verifyInline code => ∃ (name output : Bytes) (stored : Bool),
      [⟨.system (versionCommand config), (0 : Int)⟩, ⟨.tmpnam, name⟩,
        ⟨.writeFile (name ++ str ".lean") code, stored⟩,
        ⟨.popen (runCommand config (name ++ str ".lean")), some (output, (0 : Int))⟩] <:+: events ∧
      hash = sha256Hex (readAll output)

/-- The version command failed; the hash is that of what was to be checked. -/
def Unchecked (config : LeanConfig) (events : Trace) (hash : Bytes) : Call → Prop
  | .verifyProof path => ∃ (status : Int) (content : Bytes), status ≠ 0 ∧
      [⟨.system (versionCommand config), status⟩, ⟨.readFile path, content⟩] <:+: events ∧
      hash = sha256Hex content
  | .verifyInline code => ∃ status : Int, status ≠ 0 ∧
      [⟨.system (versionCommand config), status⟩] <:+: events ∧ hash = sha256Hex code

structure Justified (config : LeanConfig) (events : Trace) (call : Call) (r : LeanProofResult) :
    Prop where
  verified : r.verified = true → Accepted config events r.hash call ∨
    config.failClosed = false ∧ Unchecked config events r.hash call
  failed : r.verified = false → r.errorMsg ≠ [] ∧ r.hash = sha256Hex r.errorMsg

section Sessions
variable {config : LeanConfig} {events : Trace}

theorem justified_failed {call : Call} (t : UInt64) {errorMsg : Bytes} (message : errorMsg ≠ []) :
    Justified config events call (failed t errorMsg) :=
  ⟨fun accepted => Bool.noConfusion accepted, fun _ => ⟨message, rfl⟩⟩

theorem justified_verified {call : Call} (t : UInt64) {hash : Bytes}
    (rests : Accepted config events hash call ∨
      config.failClosed = false ∧ Unchecked config events hash call) :
    Justified config events call (verified t hash) :=
  ⟨fun _ => rests, fun rejected => Bool.noConfusion rejected⟩

theorem verifyProof_justified {path : Bytes} {r : LeanProofResult}
    (run : ProofRun config path events (some r)) :
    Justified config events (.verifyProof path) r := by
  cases run with
  | absent t =>
      have message : str "Lean file not found: " ≠ [] := by decide
      exact justified_failed t (by simp [notFound, message])
  | closed t => exact justified_failed t (by decide)
  | unproved t content nonzero opened =>
      exact justified_verified t (.inr ⟨opened, _, content, nonzero, ⟨[_, _], [], rfl⟩, rfl⟩)
  | rejected t => exact justified_failed t (by decide)
  | proved t output => exact justified_verified t (.inl ⟨output, ⟨[_], [], rfl⟩, rfl⟩)

theorem verifyInline_justified {code : Bytes} {out : Option LeanProofResult} {r : LeanProofResult}
    (run : InlineRun config code events out) (returned : out = some r) :
    Justified config events (.verifyInline code) r := by
  cases run with
  | closed t =>
      obtain rfl := Option.some.inj returned
      exact justified_failed t (by decide)
  | unproved t nonzero opened =>
      obtain rfl := Option.some.inj returned
      exact justified_verified t (.inr ⟨opened, _, nonzero, ⟨[_], [], rfl⟩, rfl⟩)
  | ran t name stored removed answered =>
      obtain ⟨_, rfl, rfl⟩ := Option.map_eq_some_iff.mp returned
      cases answered with
      | unstarted => exact justified_failed t (by decide)
      | refused => exact justified_failed t (by decide)
      | accepted output =>
          exact justified_verified t (.inl ⟨name, output, stored, ⟨[_], [_], rfl⟩, rfl⟩)

theorem Justified.mono {part : Trace} (inside : part <:+: events) {call : Call} {r : LeanProofResult}
    (justified : Justified config part call r) : Justified config events call r := by
  refine ⟨fun accepted => (justified.verified accepted).imp ?_ (And.imp_right ?_), justified.failed⟩
  · cases call with
    | verifyProof path =>
        rintro ⟨output, stretch, hash⟩
        exact ⟨output, stretch.trans inside, hash⟩
    | verifyInline code =>
        rintro ⟨name, output, stored, stretch, hash⟩
        exact ⟨name, output, stored, stretch.trans inside, hash⟩
  · cases call with
    | verifyProof path =>
        rintro ⟨status, content, nonzero, stretch, hash⟩
        exact ⟨status, content, nonzero, stretch.trans inside, hash⟩
    | verifyInline code =>
        rintro ⟨status, nonzero, stretch, hash⟩
        exact ⟨status, nonzero, stretch.trans inside, hash⟩

/-- In fail-closed mode nothing is verified but by a command that ended with 0. -/
theorem session_justified {calls : List Call} {results : List LeanProofResult}
    (ran : (session config calls).Run events (some results)) :
    List.Forall₂ (Justified config events) calls results := by
  refine (each_values ran).imp ?_
  rintro (path | code) r ⟨part, inside, made⟩
  · exact (verifyProof_justified (verifyProof_run made)).mono inside
  · exact (verifyInline_justified (verifyInline_run made) rfl).mono inside

/-- The second write fails, and its call is verified all the same. -/
theorem session_justified_proved : ∃ events r₁ r₂,
    (session .defaults [.verifyProof (str "A.lean"), .verifyInline (str "example")]).Run events
      (some [r₁, r₂]) ∧ r₁.verified = true ∧ r₂.verified = true ∧
      ⟨.writeFile (str "/tmp/x" ++ str ".lean") (str "example"), false⟩ ∈ events ∧
      Accepted .defaults events r₁.hash (.verifyProof (str "A.lean")) ∧
      Accepted .defaults events r₂.hash (.verifyInline (str "example")) := by
  have ran : (session .defaults [.verifyProof (str "A.lean"), .verifyInline (str "example")]).Run
      [⟨.now, (5 : UInt64)⟩, ⟨.fileExists (str "A.lean"), some true⟩,
        ⟨.system (versionCommand .defaults), (0 : Int)⟩,
        ⟨.popen (runCommand .defaults (str "A.lean")), some (str "ok", (0 : Int))⟩,
        ⟨.now, (6 : UInt64)⟩, ⟨.system (versionCommand .defaults), (0 : Int)⟩,
        ⟨.tmpnam, str "/tmp/x"⟩, ⟨.writeFile (str "/tmp/x" ++ str ".lean") (str "example"), false⟩,
        ⟨.popen (runCommand .defaults (str "/tmp/x" ++ str ".lean")), some (str "ok", (0 : Int))⟩,
        ⟨.remove (str "/tmp/x" ++ str ".lean"), some true⟩]
      (some [verified 5 (sha256Hex (readAll (str "ok"))),
        verified 6 (sha256Hex (readAll (str "ok")))]) :=
    ⟨_, _, rfl, _, _, rfl, _, _, rfl, _, _, rfl, _, _, rfl, _, _, rfl, _, _, rfl, _, _, rfl, _, _, rfl,
      _, _, rfl, rfl, rfl⟩
  obtain ⟨first, second⟩ := List.forall₂_cons.mp (session_justified ran)
  have last := (List.forall₂_cons.mp second).1
  have closed {P : Prop} : ¬ (LeanConfig.defaults.failClosed = false ∧ P) :=
    fun opened => Bool.noConfusion opened.1
  exact ⟨_, _, _, ran, rfl, rfl, by simp, (first.verified rfl).resolve_right closed,
    (last.verified rfl).resolve_right closed⟩

/-! ## What a session leaves behind -/

def written : Event Query.Answer → Option Bytes
  | ⟨.writeFile path _, _⟩ => some path
  | _ => none

def removed : Event Query.Answer → Option Bytes
  | ⟨.remove path, _⟩ => some path
  | _ => none

def executed : Event Query.Answer → Option Bytes
  | ⟨.system command, _⟩ => some command
  | ⟨.popen command, _⟩ => some command
  | _ => none

/-- Each command handed to the shell is the version command or the one for a file of the calls or for a
file whose write was asked for. -/
def Confined (config : LeanConfig) (calls : List Call) (events : Trace) : Prop :=
  ∀ command ∈ events.filterMap executed, command = versionCommand config ∨
    ∃ path, command = runCommand config path ∧
      (.verifyProof path ∈ calls ∨ path ∈ events.filterMap written)

theorem Confined.of_part {calls : List Call} {part : Trace} (confined : Confined config calls part)
    (kept : part.filterMap written ⊆ events.filterMap written) {command : Bytes}
    (member : command ∈ part.filterMap executed) : command = versionCommand config ∨
      ∃ path, command = runCommand config path ∧
        (.verifyProof path ∈ calls ∨ path ∈ events.filterMap written) := by
  refine (confined command member).imp_right ?_
  rintro ⟨path, same, allowed⟩
  exact ⟨path, same, allowed.imp_right (kept ·)⟩

theorem Confined.append {calls : List Call} {first second : Trace}
    (one : Confined config calls first) (other : Confined config calls second) :
    Confined config calls (first ++ second) := by
  intro command member
  rw [List.filterMap_append, List.mem_append] at member
  have together : (first ++ second).filterMap written =
      first.filterMap written ++ second.filterMap written := List.filterMap_append
  rcases member with member | member
  · exact one.of_part (together ▸ List.subset_append_left _ _) member
  · exact other.of_part (together ▸ List.subset_append_right _ _) member

end Sessions
end SovereignPirtm.Bridge
