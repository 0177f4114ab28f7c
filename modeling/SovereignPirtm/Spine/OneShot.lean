import SovereignPirtm.Spine.SedonaSpine

/-!
# Closures execute once, and names stay sealed

Executions with a record of every call that starts on the way, those that the closure's function makes
included, and the log of an enforcer after any records.
-/

namespace SovereignPirtm.Spine
open Library

variable {Input Output : Type}

/-! ## Calls of a closure -/

inductive Access where
  | direct (boundary : FFIBoundary)
  | guarded (guard : FFIGuard)

def Access.boundary : Access → FFIBoundary
  | .direct boundary => boundary
  | .guarded guard => guard.boundary

def Access.execute (access : Access) (c : SealedClosure Input Output) (input : Input) :
    Option Output × SealedClosure Input Output :=
  match access with
  | .direct boundary => c.execute input boundary
  | .guarded guard => guard.execute c input

structure Call (Output : Type) where
  boundary : FFIBoundary
  answer : Option Output
  -- what `last_boundary` says when the call returns
  lastBoundary : Option FFIBoundary

namespace SealedClosure

def watchBody (execute : SealedClosure Input Output → Input → FFIBoundary →
      Option (List (Call Output) × Option Output × SealedClosure Input Output)) :
    SealedClosure Input Output → Body Input Output →
      Option (List (Call Output) × Output × SealedClosure Input Output)
  | c, .done output => some ([], output, c)
  | c, .reenter input boundary resume =>
      (execute c input boundary).bind fun (nested, answer, c) =>
        (watchBody execute c (resume answer)).map fun (later, output, c) =>
          (nested ++ later, output, c)

/-- `executeNested`, with the calls that start on the way, in the order in which they start. -/
def watch : Nat → SealedClosure Input Output → Input → FFIBoundary →
    Option (List (Call Output) × Option Output × SealedClosure Input Output)
  | 0, _, _, _ => none
  | depth+1, c, input, boundary =>
      if c.crossed then some ([⟨boundary, none, c.lastBoundary⟩], none, c)
      else (watchBody (watch depth) (c.cross boundary) (c.fn input)).map
        fun (nested, output, c) =>
          (⟨boundary, some output, c.lastBoundary⟩ :: nested, some output, c)

def watchAll (depth : Nat) : SealedClosure Input Output → List (Access × Input) →
    Option (List (Call Output) × SealedClosure Input Output)
  | c, [] => some ([], c)
  | c, (access, input) :: calls =>
      (c.watch depth input access.boundary).bind fun (first, _, c) =>
        (watchAll depth c calls).map fun (later, c) => (first ++ later, c)

theorem watchBody_runBody (depth : Nat)
    (same : ∀ (c : SealedClosure Input Output) input boundary,
      (c.watch depth input boundary).map Prod.snd = executeNested depth c input boundary)
    (c : SealedClosure Input Output) (body : Body Input Output) :
    (watchBody (watch depth) c body).map Prod.snd = runBody (executeNested depth) c body := by
  induction body generalizing c with
  | done output => rfl
  | reenter input boundary resume ih =>
      rw [watchBody, runBody, ← same c input boundary]
      cases watch depth c input boundary with
      | none => rfl
      | some result =>
          obtain ⟨nested, answer, c'⟩ := result
          simp only [Option.bind_some, Option.map_some, ← ih, Option.map_map]
          rfl

theorem watch_executeNested (depth : Nat) (c : SealedClosure Input Output) (input : Input)
    (boundary : FFIBoundary) :
    (c.watch depth input boundary).map Prod.snd = executeNested depth c input boundary := by
  induction depth generalizing c input boundary with
  | zero => rfl
  | succ depth ih =>
      rw [watch, executeNested]
      split
      · rfl
      · rw [← watchBody_runBody depth ih, Option.map_map, Option.map_map]
        rfl

theorem executeNested_access (depth : Nat) (c : SealedClosure Input Output) (access : Access)
    (input : Input) :
    executeNested (depth+2) c input access.boundary = some (access.execute c input) := by
  rw [executeNested_eq]
  cases access <;> rfl

/-! ## Calls after the first -/

section Crossed
variable {c : SealedClosure Input Output} (crossed : c.crossed = true)
include crossed

theorem watch_crossed (depth : Nat) (input : Input) (boundary : FFIBoundary) :
    c.watch (depth+1) input boundary = some ([⟨boundary, none, c.lastBoundary⟩], none, c) := by
  rw [watch, if_pos crossed]

theorem watchBody_crossed (depth : Nat) (body : Body Input Output) :
    ∃ nested : List (Call Output), watchBody (watch (depth+1)) c body = some (nested, answer body, c) ∧
      ∀ call ∈ nested, call.answer = none ∧ call.lastBoundary = c.lastBoundary := by
  induction body with
  | done output => exact ⟨[], rfl, by simp⟩
  | reenter input boundary resume ih =>
      obtain ⟨later, ran, refused⟩ := ih none
      refine ⟨⟨boundary, none, c.lastBoundary⟩ :: later, ?_, ?_⟩
      · rw [watchBody, watch_crossed crossed, Option.bind_some]
        dsimp only
        rw [ran]
        rfl
      · exact List.forall_mem_cons.mpr ⟨⟨rfl, rfl⟩, refused⟩

theorem watchAll_crossed (depth : Nat) (calls : List (Access × Input)) :
    ∃ log, c.watchAll (depth+1) calls = some (log, c) ∧
      ∀ call ∈ log, call.answer = none ∧ call.lastBoundary = c.lastBoundary := by
  induction calls with
  | nil => exact ⟨[], rfl, by simp⟩
  | cons call calls ih =>
      obtain ⟨access, input⟩ := call
      obtain ⟨later, ran, refused⟩ := ih
      refine ⟨⟨access.boundary, none, c.lastBoundary⟩ :: later, ?_, ?_⟩
      · rw [watchAll, watch_crossed crossed, Option.bind_some]
        dsimp only
        rw [ran]
        rfl
      · exact List.forall_mem_cons.mpr ⟨⟨rfl, rfl⟩, refused⟩

end Crossed

/-! ## The first call -/

/-- What the calls of one closure look like when it has been executed at most once. -/
structure OneShot (log : List (Call Output)) (c : SealedClosure Input Output) : Prop where
  invocations : c.invocations = if log.isEmpty then 0 else 1
  answered : ∀ first ∈ log.head?, first.answer.isSome = true
  refused : ∀ call ∈ log.tail, call.answer = none
  kept : ∀ first ∈ log.head?, c.lastBoundary = some first.boundary ∧
    ∀ call ∈ log, call.lastBoundary = some first.boundary

theorem watch_new (depth : Nat) (fn : Input → Body Input Output) (name : Bytes) (input : Input)
    (boundary : FFIBoundary) :
    ∃ nested : List (Call Output), ∃ output, (new fn name).watch (depth+2) input boundary =
        some (⟨boundary, some output, some boundary⟩ :: nested, some output,
          (new fn name).cross boundary) ∧
      ∀ call ∈ nested, call.answer = none ∧ call.lastBoundary = some boundary := by
  obtain ⟨nested, ran, refused⟩ := watchBody_crossed
    (show ((new fn name).cross boundary).crossed = true from rfl) depth (fn input)
  refine ⟨nested, answer (fn input), ?_, refused⟩
  have open_yet : ¬ (new fn name).crossed = true := Bool.false_ne_true
  rw [watch, if_neg open_yet, show (new fn name).fn input = fn input from rfl, ran]
  rfl

/-- Of all the calls of a closure, however they are nested, the first one alone invokes the function
and is answered, and its boundary stays. What is watched are the executions of the closure and of its
guards. -/
theorem calls_oneShot (fn : Input → Body Input Output) (name : Bytes) (depth : Nat)
    (calls : List (Access × Input)) :
    (∀ (c : SealedClosure Input Output) (access : Access) (input : Input),
      (c.watch (depth+2) input access.boundary).map Prod.snd =
          executeNested (depth+2) c input access.boundary ∧
        executeNested (depth+2) c input access.boundary = some (access.execute c input)) ∧
    ∃ log c, (new fn name).watchAll (depth+2) calls = some (log, c) ∧ OneShot log c ∧
      log.head?.map Call.boundary = calls.head?.map fun call => call.1.boundary := by
  refine ⟨fun c access input => ?_, ?_⟩
  · exact ⟨watch_executeNested _ c input _, executeNested_access depth c access input⟩
  cases calls with
  | nil => exact ⟨[], _, rfl, ⟨rfl, by simp, by simp, by simp⟩, rfl⟩
  | cons call calls =>
      obtain ⟨access, input⟩ := call
      obtain ⟨nested, output, ran, refused⟩ := watch_new depth fn name input access.boundary
      obtain ⟨later, ranLater, refusedLater⟩ := watchAll_crossed
        (show ((new fn name).cross access.boundary).crossed = true from rfl) (depth+1) calls
      refine ⟨⟨access.boundary, some output, some access.boundary⟩ :: (nested ++ later),
        (new fn name).cross access.boundary, ?_, ?_, rfl⟩
      · rw [watchAll, ran, Option.bind_some]
        dsimp only
        rw [ranLater]
        rfl
      · have all := List.forall_mem_append.mpr ⟨refused, refusedLater⟩
        refine ⟨rfl, by simp, fun call member => (all call member).1, ?_⟩
        simp only [List.head?_cons, Option.mem_def, Option.some.injEq, forall_eq']
        exact ⟨rfl, List.forall_mem_cons.mpr ⟨rfl, fun call member => (all call member).2⟩⟩

end SealedClosure

/-! ## Sealed names -/

namespace SedonaSpineEnforcer

def recordAll (e : SedonaSpineEnforcer) (records : List FFICrossingRecord) : SedonaSpineEnforcer :=
  records.foldl recordCrossing e

@[simp] theorem recordAll_records (e : SedonaSpineEnforcer) (records : List FFICrossingRecord) :
    (e.recordAll records).records = e.records ++ records := by
  induction records generalizing e with
  | nil => simp [recordAll]
  | cons record records ih =>
      rw [recordAll, List.foldl_cons, ← recordAll, ih, recordCrossing, List.append_assoc]
      rfl

theorem isSealed_recordAll_iff (e : SedonaSpineEnforcer) (records : List FFICrossingRecord)
    (name : Bytes) : (e.recordAll records).isSealed name = true ↔
      e.isSealed name = true ∨ ∃ record ∈ records, record.closureName = name ∧ record.success = true := by
  simp [isSealed]

theorem validateCrossing_sealed {e : SedonaSpineEnforcer} {name : Bytes}
    (sealed : e.isSealed name = true) (boundary : FFIBoundary) (expectedType : Bytes) :
    e.validateCrossing name boundary expectedType = false := by
  unfold validateCrossing
  exact if_pos sealed

theorem validateCrossing_congr {e e' : SedonaSpineEnforcer} {name : Bytes}
    (same : e.isSealed name = e'.isSealed name) (boundary : FFIBoundary) (expectedType : Bytes) :
    e.validateCrossing name boundary expectedType =
      e'.validateCrossing name boundary expectedType := by
  rw [isSealed, isSealed] at same
  unfold validateCrossing
  rw [same]

theorem isSealed_unaffected (e : SedonaSpineEnforcer) {record : FFICrossingRecord} {name : Bytes}
    (other : record.closureName ≠ name ∨ record.success = false) :
    (e.recordCrossing record).isSealed name = e.isSealed name := by
  rcases other with other | failed
  · simp [isSealed, recordCrossing, other]
  · simp [isSealed, recordCrossing, failed]

/-- A name is sealed by the first success recorded for it, for good, and by nothing else. -/
theorem sealing_exact (records : List FFICrossingRecord) (name : Bytes) :
    ((SedonaSpineEnforcer.new.recordAll records).isSealed name = true ↔
      ∃ record ∈ records, record.closureName = name ∧ record.success = true) ∧
    ((SedonaSpineEnforcer.new.recordAll records).isSealed name = true →
      ∀ later : List FFICrossingRecord,
        ((SedonaSpineEnforcer.new.recordAll records).recordAll later).isSealed name = true ∧
        ∀ boundary expectedType,
          ((SedonaSpineEnforcer.new.recordAll records).recordAll later).validateCrossing name
            boundary expectedType = false) ∧
    ∀ record : FFICrossingRecord, record.closureName ≠ name ∨ record.success = false →
      ∀ boundary expectedType,
        ((SedonaSpineEnforcer.new.recordAll records).recordCrossing record).validateCrossing name
            boundary expectedType =
          (SedonaSpineEnforcer.new.recordAll records).validateCrossing name boundary expectedType := by
  refine ⟨?_, fun sealed later => ?_, fun record other => ?_⟩
  · rw [isSealed_recordAll_iff]
    simp [SedonaSpineEnforcer.new, isSealed]
  · have still := (isSealed_recordAll_iff _ later name).mpr (.inl sealed)
    exact ⟨still, validateCrossing_sealed still⟩
  · exact validateCrossing_congr (isSealed_unaffected _ other)

end SedonaSpineEnforcer
end SovereignPirtm.Spine
