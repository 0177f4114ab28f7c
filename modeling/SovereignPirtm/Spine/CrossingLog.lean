import SovereignPirtm.Library.Transition
import SovereignPirtm.Spine.SedonaSpine

/-!
# What the crossing log says

Any number of closures and guards over one enforcer, and what the records of a run say about the
invocations that took place.
-/

namespace SovereignPirtm.Spine
open Library

structure Store (Input Output : Type) where
  closures : List (SealedClosure Input Output)
  guards : List FFIGuard
  enforcer : SedonaSpineEnforcer

/-- What a client of the spine does: guards and closures are named by their positions. -/
inductive Op (Input Output : Type) where
  | create (fn : Input → Body Input Output) (name : Bytes)
  | guard (closure : Nat) (boundary : FFIBoundary)
  | execute (guard : Nat) (input : Input)
  | destroy (guard : Nat) (now : UInt64)

variable {Input Output : Type}

namespace Store

def empty : Store Input Output := ⟨[], [], .new⟩

def lookup (s : Store Input Output) (k : Nat) : Option (FFIGuard × SealedClosure Input Output) :=
  (s.guards[k]?.filter FFIGuard.live).bind fun g => s.closures[g.closure]?.map fun c => (g, c)

def step (s : Store Input Output) : Op Input Output → Option (Store Input Output)
  | .create fn name => some { s with closures := s.closures ++ [.new fn name] }
  | .guard closure boundary =>
      if closure < s.closures.length then
        some { s with guards := s.guards ++ [.new closure boundary] }
      else none
  | .execute k input =>
      (s.lookup k).map fun (g, c) =>
        { s with closures := s.closures.set g.closure (g.execute c input).2 }
  | .destroy k now =>
      (s.lookup k).map fun (g, c) =>
        { s with
          guards := s.guards.set k { g with live := false }
          enforcer := g.destroy c s.enforcer now }

theorem lookup_eq_some_iff {s : Store Input Output} {k : Nat} {g : FFIGuard}
    {c : SealedClosure Input Output} : s.lookup k = some (g, c) ↔
      s.guards[k]? = some g ∧ g.live = true ∧ s.closures[g.closure]? = some c := by
  simp only [lookup, Option.bind_eq_some_iff, Option.filter_eq_some_iff, Option.map_eq_some_iff,
    Prod.mk.injEq]
  constructor
  · rintro ⟨g', ⟨found, live⟩, c', closure, rfl, rfl⟩
    exact ⟨found, live, closure⟩
  · rintro ⟨found, live, closure⟩
    exact ⟨g, ⟨found, live⟩, c, closure, rfl, rfl⟩

end Store

/-! ## The history of a closure -/

inductive Event where
  | executed | destroyed
deriving DecidableEq

namespace Op

def targets (built : List Nat) : Op Input Output → List Nat
  | .guard closure _ => built ++ [closure]
  | _ => built

def events (built : List Nat) (i : Nat) : Op Input Output → List Event
  | .execute k _ => if built[k]? = some i then [.executed] else []
  | .destroy k _ => if built[k]? = some i then [.destroyed] else []
  | _ => []

/-- The executions and the ends of guards that a closure sees in a run. -/
def history (i : Nat) : List Nat → List (Op Input Output) → List Event
  | _, [] => []
  | built, op :: ops => op.events built i ++ history i (op.targets built) ops

theorem history_concat (i : Nat) (built : List Nat) (ops : List (Op Input Output))
    (last : Op Input Output) : history i built (ops ++ [last]) =
      history i built ops ++ last.events (ops.foldl targets built) i := by
  induction ops generalizing built with
  | nil => simp [history]
  | cons op ops ih => rw [List.cons_append, history, history, ih, List.foldl_cons, List.append_assoc]

end Op

def earlyEnds : List Event → Nat
  | [] => 0
  | .executed :: _ => 0
  | .destroyed :: events => earlyEnds events + 1

theorem earlyEnds_executed (events : List Event) :
    earlyEnds (events ++ [.executed]) = earlyEnds events := by
  induction events with
  | nil => rfl
  | cons event events ih =>
      cases event with
      | executed => rfl
      | destroyed => rw [List.cons_append, earlyEnds, earlyEnds, ih]

theorem earlyEnds_destroyed (events : List Event) :
    earlyEnds (events ++ [.destroyed]) =
      earlyEnds events + if .executed ∈ events then 0 else 1 := by
  induction events with
  | nil => rfl
  | cons event events ih =>
      cases event with
      | executed => simp [earlyEnds]
      | destroyed =>
          rw [List.cons_append, earlyEnds, earlyEnds, ih]
          simp only [List.mem_cons, reduceCtorEq, false_or]
          omega

theorem earlyEnds_eq_zero_iff {events : List Event} (never : .executed ∉ events) :
    earlyEnds events = 0 ↔ .destroyed ∉ events := by
  cases events with
  | nil => simp [earlyEnds]
  | cons event events =>
      cases event with
      | executed => simp at never
      | destroyed => simp [earlyEnds]

/-! ## What a run leaves behind -/

structure Tracks (ops : List (Op Input Output)) (s : Store Input Output) : Prop where
  targets : s.guards.map FFIGuard.closure = ops.foldl Op.targets []
  within : ∀ g ∈ s.guards, g.closure < s.closures.length
  absent : ∀ i, s.closures.length ≤ i → Op.history i [] ops = []
  crossed : ∀ i c, s.closures[i]? = some c → (c.crossed = true ↔ .executed ∈ Op.history i [] ops)
  invoked : ∀ i c, s.closures[i]? = some c →
    c.invocations = if .executed ∈ Op.history i [] ops then 1 else 0
  known : ∀ record ∈ s.enforcer.records, record.closureName ∈ s.closures.map SealedClosure.name
  logged : (s.closures.map SealedClosure.name).Nodup → ∀ i c, s.closures[i]? = some c →
    s.enforcer.successes c.name = earlyEnds (Op.history i [] ops)

namespace Tracks
variable {ops : List (Op Input Output)} {s : Store Input Output}

theorem empty : Tracks [] (Store.empty : Store Input Output) where
  targets := rfl
  within := by simp [Store.empty]
  absent := by simp [Op.history]
  crossed := by simp [Store.empty]
  invoked := by simp [Store.empty]
  known := by simp [Store.empty, SedonaSpineEnforcer.new]
  logged := by simp [Store.empty]

theorem history_create (fn : Input → Body Input Output) (name : Bytes) (i : Nat) :
    Op.history i [] (ops ++ [.create fn name]) = Op.history i [] ops := by
  simp [Op.history_concat, Op.events]

theorem history_guard (closure : Nat) (boundary : FFIBoundary) (i : Nat) :
    Op.history i [] (ops ++ [.guard closure boundary]) = Op.history i [] ops := by
  simp [Op.history_concat, Op.events]

theorem built_iff (held : Tracks ops s) {k : Nat} {g : FFIGuard} (found : s.guards[k]? = some g)
    (i : Nat) : (ops.foldl Op.targets [])[k]? = some i ↔ g.closure = i := by
  rw [← held.targets, List.getElem?_map, found, Option.map_some, Option.some.injEq]

theorem history_execute (held : Tracks ops s) {k : Nat} {g : FFIGuard}
    (found : s.guards[k]? = some g) (input : Input) (i : Nat) :
    Op.history i [] (ops ++ [.execute k input]) =
      Op.history i [] ops ++ if g.closure = i then [.executed] else [] := by
  simp only [Op.history_concat, Op.events, held.built_iff found]

theorem history_destroy (held : Tracks ops s) {k : Nat} {g : FFIGuard}
    (found : s.guards[k]? = some g) (now : UInt64) (i : Nat) :
    Op.history i [] (ops ++ [.destroy k now]) =
      Op.history i [] ops ++ if g.closure = i then [.destroyed] else [] := by
  simp only [Op.history_concat, Op.events, held.built_iff found]

theorem create (held : Tracks ops s) (fn : Input → Body Input Output) (name : Bytes) :
    Tracks (ops ++ [.create fn name]) { s with closures := s.closures ++ [.new fn name] } := by
  -- a closure is an old one, or the new one, which nothing has happened to
  have cases {i c} (found : (s.closures ++ [SealedClosure.new fn name])[i]? = some c) :
      s.closures[i]? = some c ∨ (c = .new fn name ∧ Op.history i [] ops = []) := by
    rcases lt_or_ge i s.closures.length with old | new
    · rw [List.getElem?_append_left old] at found
      exact .inl found
    · rw [List.getElem?_append_right new] at found
      obtain ⟨-, rfl⟩ := List.getElem?_eq_some_iff.mp found
      exact .inr ⟨by simp, held.absent i new⟩
  constructor <;> dsimp only
  · rw [List.foldl_append]
    exact held.targets
  · intro g member
    rw [List.length_append]
    exact Nat.lt_add_right _ (held.within g member)
  · intro i beyond
    rw [history_create]
    rw [List.length_append] at beyond
    exact held.absent i (by omega)
  · intro i c found
    rw [history_create]
    rcases cases found with old | ⟨rfl, nothing⟩
    · exact held.crossed i c old
    · simp [nothing, SealedClosure.new]
  · intro i c found
    rw [history_create]
    rcases cases found with old | ⟨rfl, nothing⟩
    · exact held.invoked i c old
    · simp [nothing, SealedClosure.new]
  · intro record member
    rw [List.map_append]
    exact List.mem_append_left _ (held.known record member)
  · intro distinct i c found
    rw [List.map_append] at distinct
    rw [history_create]
    rcases cases found with old | ⟨rfl, nothing⟩
    · exact held.logged distinct.of_append_left i c old
    · rw [nothing, earlyEnds, SedonaSpineEnforcer.successes, List.countP_eq_zero]
      intro record member same
      have there : name ∈ [SealedClosure.new fn name].map SealedClosure.name := by
        simp [SealedClosure.new]
      have fresh := (List.nodup_append.mp distinct).2.2 _ (held.known record member) name there
      simp [SealedClosure.new] at same
      exact fresh same.1

theorem guard (held : Tracks ops s) {closure : Nat} (boundary : FFIBoundary)
    (there : closure < s.closures.length) :
    Tracks (ops ++ [.guard closure boundary])
      { s with guards := s.guards ++ [.new closure boundary] } := by
  constructor <;> dsimp only
  · rw [List.map_append, List.foldl_append, held.targets]
    rfl
  · intro g member
    rcases List.mem_append.mp member with old | new
    · exact held.within g old
    · rw [List.mem_singleton.mp new]
      exact there
  · intro i
    rw [history_guard]
    exact held.absent i
  · intro i
    rw [history_guard]
    exact held.crossed i
  · intro i
    rw [history_guard]
    exact held.invoked i
  · exact held.known
  · intro distinct i
    rw [history_guard]
    exact held.logged distinct i

theorem execute (held : Tracks ops s) {k : Nat} {g : FFIGuard} {c : SealedClosure Input Output}
    (found : s.lookup k = some (g, c)) (input : Input) :
    Tracks (ops ++ [.execute k input])
      { s with closures := s.closures.set g.closure (g.execute c input).2 } := by
  obtain ⟨guard, -, closure⟩ := Store.lookup_eq_some_iff.mp found
  have names : (s.closures.set g.closure (g.execute c input).2).map SealedClosure.name =
      s.closures.map SealedClosure.name :=
    map_set_same SealedClosure.name closure (c.execute_name input g.boundary)
  have history := held.history_execute guard input
  -- the closure that is executed, or another one
  have cases {i c'} (there : (s.closures.set g.closure (g.execute c input).2)[i]? = some c') :
      (g.closure = i ∧ c' = (c.execute input g.boundary).2) ∨
        (g.closure ≠ i ∧ s.closures[i]? = some c') := by
    rw [List.getElem?_set] at there
    split at there
    · rename_i same
      rw [if_pos (List.getElem?_eq_some_iff.mp closure).1] at there
      exact .inl ⟨same, (Option.some.inj there).symm⟩
    · rename_i other
      exact .inr ⟨other, there⟩
  constructor <;> dsimp only
  · rw [List.foldl_append]
    exact held.targets
  · intro g member
    rw [List.length_set]
    exact held.within g member
  · intro i beyond
    rw [List.length_set] at beyond
    have other : g.closure ≠ i := by
      have := held.within g (List.mem_of_getElem? guard)
      omega
    rw [history, if_neg other, List.append_nil]
    exact held.absent i beyond
  · intro i c' there
    rw [history]
    rcases cases there with ⟨same, rfl⟩ | ⟨other, old⟩
    · simp [same]
    · simpa [other] using held.crossed i c' old
  · intro i c' there
    rw [history]
    rcases cases there with ⟨rfl, rfl⟩ | ⟨other, old⟩
    · have before := held.crossed _ _ closure
      rw [SealedClosure.execute_invocations, held.invoked _ _ closure]
      by_cases executed : .executed ∈ Op.history g.closure [] ops <;> simp [before, executed]
    · simpa [other] using held.invoked i c' old
  · rw [names]
    exact held.known
  · intro distinct i c' there
    rw [names] at distinct
    rw [history]
    rcases cases there with ⟨rfl, rfl⟩ | ⟨other, old⟩
    · rw [if_pos rfl, earlyEnds_executed, SealedClosure.execute_name]
      exact held.logged distinct _ _ closure
    · rw [if_neg other, List.append_nil]
      exact held.logged distinct i c' old

theorem destroy (held : Tracks ops s) {k : Nat} {g : FFIGuard} {c : SealedClosure Input Output}
    (found : s.lookup k = some (g, c)) (now : UInt64) :
    Tracks (ops ++ [.destroy k now])
      { s with
        guards := s.guards.set k { g with live := false }
        enforcer := g.destroy c s.enforcer now } := by
  obtain ⟨guard, -, closure⟩ := Store.lookup_eq_some_iff.mp found
  have history := held.history_destroy guard now
  have within := held.within g (List.mem_of_getElem? guard)
  have targets : (s.guards.set k { g with live := false }).map FFIGuard.closure =
      s.guards.map FFIGuard.closure := map_set_same FFIGuard.closure guard rfl
  have executed_iff (i : Nat) : .executed ∈ Op.history i [] (ops ++ [.destroy k now]) ↔
      .executed ∈ Op.history i [] ops := by
    rw [history]
    split <;> simp
  constructor <;> dsimp only
  · rw [targets, List.foldl_append]
    exact held.targets
  · intro g' member
    rcases List.mem_or_eq_of_mem_set member with old | rfl
    · exact held.within g' old
    · exact within
  · intro i beyond
    rw [history, if_neg (by omega), List.append_nil]
    exact held.absent i beyond
  · intro i
    simpa only [executed_iff] using held.crossed i
  · intro i
    simpa only [executed_iff] using held.invoked i
  · intro record member
    rcases List.mem_append.mp member with old | new
    · exact held.known record old
    · rw [List.mem_singleton.mp new]
      exact List.mem_map_of_mem (List.mem_of_getElem? closure)
  · intro distinct i c' there
    have same_name : c.name = c'.name ↔ g.closure = i := by
      constructor
      · intro same
        apply (List.getElem?_inj (by simpa using within) distinct).mp
        rw [List.getElem?_map, List.getElem?_map, closure, there, Option.map_some, same,
          Option.map_some]
      · rintro rfl
        rw [closure] at there
        rw [Option.some.inj there]
    rw [FFIGuard.successes_destroy, held.logged distinct i c' there, history]
    simp only [same_name]
    by_cases same : g.closure = i
    · subst same
      have flag := held.crossed _ _ closure
      rw [if_pos rfl, earlyEnds_destroyed]
      by_cases executed : .executed ∈ Op.history g.closure [] ops
      · simp [flag.mpr executed, executed]
      · have fresh : c.crossed = false := by
          rw [← Bool.not_eq_true, flag]
          exact executed
        simp [fresh, executed]
    · simp [same]

end Tracks

theorem step_tracks (ops : List (Op Input Output)) (s : Store Input Output) (op : Op Input Output)
    (s' : Store Input Output) (held : Tracks ops s) (taken : s.step op = some s') :
    Tracks (ops ++ [op]) s' := by
  cases op with
  | create fn name =>
      rw [← Option.some.inj taken]
      exact held.create fn name
  | guard closure boundary =>
      rw [Store.step, Option.ite_none_right_eq_some] at taken
      rw [← Option.some.inj taken.2]
      exact held.guard boundary taken.1
  | execute k input =>
      obtain ⟨⟨g, c⟩, found, rfl⟩ := Option.map_eq_some_iff.mp taken
      exact held.execute found input
  | destroy k now =>
      obtain ⟨⟨g, c⟩, found, rfl⟩ := Option.map_eq_some_iff.mp taken
      exact held.destroy found now

theorem run_tracks {ops : List (Op Input Output)} {s : Store Input Output}
    (ran : run Store.step .empty ops = some s) : Tracks ops s :=
  run_invariant Tracks .empty step_tracks ran

/-! ## When the log is right -/

/-- For every closure the log holds as many successes as there were invocations, and calls it sealed
exactly when there was one. -/
def LogTruthful (s : Store Input Output) : Prop :=
  ∀ c ∈ s.closures, s.enforcer.successes c.name = c.invocations ∧
    (s.enforcer.isSealed c.name = true ↔ 0 < c.invocations)

/-- The log is right as long as every closure has seen neither an execution nor the end of a guard,
or has been executed after exactly one of its guards ended. -/
theorem logTruthful_iff {ops : List (Op Input Output)} {s : Store Input Output}
    (ran : run Store.step .empty ops = some s)
    (distinct : (s.closures.map SealedClosure.name).Nodup) :
    LogTruthful s ↔ ∀ i,
      (.executed ∉ Op.history i [] ops ∧ .destroyed ∉ Op.history i [] ops) ∨
        (.executed ∈ Op.history i [] ops ∧ earlyEnds (Op.history i [] ops) = 1) := by
  have held := run_tracks ran
  constructor
  · intro truthful i
    rcases lt_or_ge i s.closures.length with there | beyond
    · have found := List.getElem?_eq_getElem there
      have count := (truthful _ (List.getElem_mem there)).1
      rw [held.logged distinct i _ found, held.invoked i _ found] at count
      by_cases executed : .executed ∈ Op.history i [] ops
      · exact .inr ⟨executed, by rw [count, if_pos executed]⟩
      · rw [if_neg executed] at count
        exact .inl ⟨executed, (earlyEnds_eq_zero_iff executed).mp count⟩
    · rw [held.absent i beyond]
      exact .inl ⟨List.not_mem_nil, List.not_mem_nil⟩
  · intro single c member
    obtain ⟨i, found⟩ := List.getElem?_of_mem member
    have count : s.enforcer.successes c.name = c.invocations := by
      rw [held.logged distinct i c found, held.invoked i c found]
      rcases single i with ⟨never, quiet⟩ | ⟨executed, one⟩
      · rw [if_neg never, earlyEnds_eq_zero_iff never]
        exact quiet
      · rw [if_pos executed, one]
    exact ⟨count, by rw [SedonaSpineEnforcer.isSealed_iff, count]⟩

def spareGuard : List (Op UInt64 UInt64) :=
  [.create .done (str "f"), .guard 0 .runtime, .guard 0 .runtime, .destroy 0 10, .execute 1 7,
    .destroy 1 11]

theorem logTruthful_spareGuard :
    ∃ s, run Store.step .empty spareGuard = some s ∧ LogTruthful s := by
  refine ⟨_, rfl, (logTruthful_iff (show run Store.step .empty spareGuard = some _ from rfl)
    (by decide)).mpr ?_⟩
  intro i
  rcases Nat.eq_zero_or_pos i with rfl | other
  · exact .inr (by decide)
  · simp [spareGuard, Op.history, Op.events, Op.targets, other.ne]

def singleCrossing : List (Op UInt64 UInt64) :=
  [.create .done (str "f"), .guard 0 .runtime, .execute 0 7, .destroy 0 10]

theorem not_logTruthful_singleCrossing :
    ∃ s, run Store.step .empty singleCrossing = some s ∧
      (s.closures.map SealedClosure.name).Nodup ∧ (∀ g ∈ s.guards, g.live = false) ∧
      ¬ LogTruthful s := by
  refine ⟨_, rfl, by decide, by decide, fun truthful => ?_⟩
  have count := (truthful _ List.mem_cons_self).1
  exact absurd count (by decide)

end SovereignPirtm.Spine
