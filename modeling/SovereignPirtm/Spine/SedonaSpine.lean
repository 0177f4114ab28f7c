import SovereignPirtm.Library.Text

/-!
# Sealed closures, guards and the crossing log

`SealedClosure`, `SedonaSpineEnforcer` and `FFIGuard`. The destructor that the source spells `~FIGuard`
is read as that of `FFIGuard`.
-/

namespace SovereignPirtm.Spine
open Library

inductive FFIBoundary where
  | compileTime | runtime | wasm | lean | native
deriving DecidableEq

/-! ## Closures -/

/-- What a closure's function does on an input: it may execute its own closure again, any number of
times and depending on the answers, before it returns. A function that ends by an exception has the
exception for its output: when it is raised the closure is marked already. -/
inductive Body (Input Output : Type) where
  | done (output : Output)
  | reenter (input : Input) (boundary : FFIBoundary) (resume : Option Output → Body Input Output)

structure SealedClosure (Input Output : Type) where
  fn : Input → Body Input Output
  name : Bytes
  crossed : Bool
  -- not initialized before the first crossing
  lastBoundary : Option FFIBoundary
  -- how often `fn` has been invoked; the source keeps no such count
  invocations : Nat

variable {Input Output : Type}

namespace SealedClosure

def new (fn : Input → Body Input Output) (name : Bytes) : SealedClosure Input Output :=
  { fn := fn, name := name, crossed := false, lastBoundary := none, invocations := 0 }

def cross (c : SealedClosure Input Output) (boundary : FFIBoundary) : SealedClosure Input Output :=
  { c with crossed := true, lastBoundary := some boundary, invocations := c.invocations + 1 }

def runBody (execute : SealedClosure Input Output → Input → FFIBoundary →
      Option (Option Output × SealedClosure Input Output)) :
    SealedClosure Input Output → Body Input Output → Option (Output × SealedClosure Input Output)
  | c, .done output => some (output, c)
  | c, .reenter input boundary resume =>
      (execute c input boundary).bind fun (answer, c) => runBody execute c (resume answer)

/-- `execute`, with a bound on how deep executions nest. -/
def executeNested : Nat → SealedClosure Input Output → Input → FFIBoundary →
    Option (Option Output × SealedClosure Input Output)
  | 0, _, _, _ => none
  | depth+1, c, input, boundary =>
      if c.crossed then some (none, c)
      else (runBody (executeNested depth) (c.cross boundary) (c.fn input)).map
        fun (output, c) => (some output, c)

def answer : Body Input Output → Output
  | .done output => output
  | .reenter _ _ resume => answer (resume none)

/-- `execute`, with the function's own executions resolved. -/
def execute (c : SealedClosure Input Output) (input : Input) (boundary : FFIBoundary) :
    Option Output × SealedClosure Input Output :=
  if c.crossed then (none, c) else (some (answer (c.fn input)), c.cross boundary)

theorem runBody_crossed (depth : Nat) {c : SealedClosure Input Output} (crossed : c.crossed = true)
    (body : Body Input Output) :
    runBody (executeNested (depth+1)) c body = some (answer body, c) := by
  induction body with
  | done output => rfl
  | reenter input boundary resume ih =>
      rw [runBody, executeNested, if_pos crossed, Option.bind_some]
      exact ih none

theorem executeNested_eq (depth : Nat) (c : SealedClosure Input Output) (input : Input)
    (boundary : FFIBoundary) :
    executeNested (depth+2) c input boundary = some (c.execute input boundary) := by
  unfold executeNested execute
  split
  · rfl
  · rw [runBody_crossed depth rfl, Option.map_some]

@[simp] theorem execute_name (c : SealedClosure Input Output) (input : Input)
    (boundary : FFIBoundary) : (c.execute input boundary).2.name = c.name := by
  unfold execute
  split <;> rfl

@[simp] theorem execute_crossed (c : SealedClosure Input Output) (input : Input)
    (boundary : FFIBoundary) : (c.execute input boundary).2.crossed = true := by
  unfold execute
  split
  · assumption
  · rfl

theorem execute_invocations (c : SealedClosure Input Output) (input : Input)
    (boundary : FFIBoundary) : (c.execute input boundary).2.invocations =
      c.invocations + if c.crossed then 0 else 1 := by
  unfold execute
  split <;> rfl

end SealedClosure

/-! ## The crossing log -/

structure FFICrossingRecord where
  closureName : Bytes
  boundary : FFIBoundary
  timestampNs : UInt64
  success : Bool
  errorMsg : Bytes
  receiptHash : Bytes
deriving DecidableEq

structure SedonaSpineEnforcer where
  records : List FFICrossingRecord
deriving DecidableEq

namespace SedonaSpineEnforcer

def new : SedonaSpineEnforcer := ⟨[]⟩

def isSealed (e : SedonaSpineEnforcer) (closureName : Bytes) : Bool :=
  e.records.any fun record => record.closureName == closureName && record.success

def validateCrossing (e : SedonaSpineEnforcer) (closureName : Bytes) (boundary : FFIBoundary)
    (expectedType : Bytes) : Bool :=
  if e.records.any fun record => record.closureName == closureName && record.success then false
  else
    match boundary with
    | .compileTime => !expectedType.isEmpty
    | .runtime => true
    | .wasm => decide (str "raw" <:+: expectedType)
    | .lean => decide (str "proof" <:+: expectedType)
    | .native => true

def recordCrossing (e : SedonaSpineEnforcer) (record : FFICrossingRecord) : SedonaSpineEnforcer :=
  ⟨e.records ++ [record]⟩

def successes (e : SedonaSpineEnforcer) (closureName : Bytes) : Nat :=
  e.records.countP fun record => record.closureName == closureName && record.success

theorem isSealed_iff (e : SedonaSpineEnforcer) (closureName : Bytes) :
    e.isSealed closureName = true ↔ 0 < e.successes closureName := by
  rw [isSealed, List.any_eq_true, successes, List.countP_pos_iff]

end SedonaSpineEnforcer

/-! ## Guards -/

/-- A guard holds a reference to a closure: its position among the closures that exist. -/
structure FFIGuard where
  closure : Nat
  boundary : FFIBoundary
  -- until the destructor runs
  live : Bool
deriving DecidableEq

namespace FFIGuard

def new (closure : Nat) (boundary : FFIBoundary) : FFIGuard := ⟨closure, boundary, true⟩

def execute (g : FFIGuard) (c : SealedClosure Input Output) (input : Input) :
    Option Output × SealedClosure Input Output :=
  c.execute input g.boundary

def crossingRecord (g : FFIGuard) (c : SealedClosure Input Output) (now : UInt64) :
    FFICrossingRecord :=
  { closureName := c.name, boundary := g.boundary, timestampNs := now, success := !c.crossed,
    errorMsg := [], receiptHash := [] }

def destroy (g : FFIGuard) (c : SealedClosure Input Output) (e : SedonaSpineEnforcer)
    (now : UInt64) : SedonaSpineEnforcer :=
  e.recordCrossing (g.crossingRecord c now)

theorem successes_destroy (g : FFIGuard) (c : SealedClosure Input Output) (e : SedonaSpineEnforcer)
    (now : UInt64) (closureName : Bytes) : (g.destroy c e now).successes closureName =
      e.successes closureName + if c.name = closureName ∧ c.crossed = false then 1 else 0 := by
  simp [destroy, SedonaSpineEnforcer.recordCrossing, SedonaSpineEnforcer.successes, crossingRecord,
    List.countP_append, List.countP_singleton]

end FFIGuard

theorem map_set_same {α β : Type} (f : α → β) {xs : List α} {i : Nat} {x x' : α}
    (found : xs[i]? = some x) (same : f x' = f x) : (xs.set i x').map f = xs.map f := by
  obtain ⟨within, rfl⟩ := List.getElem?_eq_some_iff.mp found
  rw [List.map_set, same, ← List.getElem_map f (h := by simpa using within), List.set_getElem_self]

end SovereignPirtm.Spine
