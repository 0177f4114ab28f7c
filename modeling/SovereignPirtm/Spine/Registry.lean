import SovereignPirtm.Library.Server
import SovereignPirtm.Spine.Clients
import SovereignPirtm.Spine.CrossingLog
import SovereignPirtm.Spine.OneShot

/-!
# The spine as a registry of one-shot functions

What the closures, guards and the log are for, as one sequential server, and the guards and clients of
the spine, whose steps come in any order, as implementations of it.
-/

namespace SovereignPirtm.Spine
open Library

/-! ## The registry -/

inductive Request (Input Output : Type) where
  | offer (f : Input → Output) (name : Bytes)
  | cross (entry : Nat) (input : Input)
  | close (entry : Nat)

inductive Response (Output : Type) where
  | offered
  | crossed (answer : Option Output)
  | closed (success : Bool)

structure Registry (Input Output : Type) where
  offers : List ((Input → Output) × Bytes)
  used : Finset Nat
  log : List (Bytes × Bool)

variable {Input Output : Type}

namespace Registry

def empty : Registry Input Output := ⟨[], ∅, []⟩

/-- The first crossing of an entry is answered and no later one. Closing an entry logs whether it is
still unused. -/
def answer (r : Registry Input Output) :
    Request Input Output → Registry Input Output × Response Output
  | .offer f name => ({ r with offers := r.offers ++ [(f, name)] }, .offered)
  | .cross entry input =>
      ({ r with used := insert entry r.used },
        .crossed (if entry ∈ r.used then none else r.offers[entry]?.map fun offer => offer.1 input))
  | .close entry =>
      ({ r with
          log := r.log ++ (r.offers[entry]?.map fun offer => (offer.2, !(entry ∈ r.used))).toList },
        .closed !(entry ∈ r.used))

end Registry

/-! ## Closures and their registry -/

def SealedClosure.offer (c : SealedClosure Input Output) : (Input → Output) × Bytes :=
  (fun input => SealedClosure.answer (c.fn input), c.name)

structure Registered (closures : List (SealedClosure Input Output)) (e : SedonaSpineEnforcer)
    (r : Registry Input Output) : Prop where
  offers : r.offers = closures.map SealedClosure.offer
  used : ∀ i c, closures[i]? = some c → (c.crossed = true ↔ i ∈ r.used)
  bounded : ∀ i ∈ r.used, i < closures.length
  log : r.log = e.records.map fun record => (record.closureName, record.success)

namespace Registered
variable {closures : List (SealedClosure Input Output)} {e : SedonaSpineEnforcer}
  {r : Registry Input Output}

theorem offer_found (held : Registered closures e r) {i : Nat} {c : SealedClosure Input Output}
    (found : closures[i]? = some c) : r.offers[i]? = some c.offer := by
  rw [held.offers, List.getElem?_map, found, Option.map_some]

theorem create (held : Registered closures e r) (fn : Input → Body Input Output) (name : Bytes) :
    Registered (closures ++ [.new fn name]) e
      (r.answer (.offer (fun input => SealedClosure.answer (fn input)) name)).1 where
  offers := by
    rw [List.map_append, ← held.offers]
    rfl
  used := by
    intro i c found
    rcases Nat.lt_or_ge i closures.length with old | new
    · rw [List.getElem?_append_left old] at found
      exact held.used i c found
    · rw [List.getElem?_append_right new] at found
      obtain rfl := List.mem_singleton.mp (List.mem_of_getElem? found)
      exact iff_of_false Bool.false_ne_true fun used => absurd (held.bounded i used) (by omega)
  bounded := by
    intro i used
    rw [List.length_append]
    exact Nat.lt_add_right _ (held.bounded i used)
  log := held.log

theorem cross (held : Registered closures e r) {i : Nat} {c : SealedClosure Input Output}
    (found : closures[i]? = some c) (input : Input) (boundary : FFIBoundary) :
    (r.answer (.cross i input)).2 = .crossed (c.execute input boundary).1 ∧
      Registered (closures.set i (c.execute input boundary).2) e (r.answer (.cross i input)).1 := by
  have within : i < closures.length := (List.getElem?_eq_some_iff.mp found).1
  constructor
  · rw [Registry.answer, held.offer_found found, Option.map_some, SealedClosure.execute]
    by_cases crossed : c.crossed = true
    · rw [if_pos crossed, if_pos ((held.used i c found).mp crossed)]
    · rw [if_neg crossed, if_neg fun used => crossed ((held.used i c found).mpr used)]
      rfl
  · have same : (c.execute input boundary).2.offer = c.offer := by
      unfold SealedClosure.execute
      split <;> rfl
    refine ⟨?_, fun j d there => ?_, fun j used => ?_, held.log⟩
    · rw [map_set_same SealedClosure.offer found same]
      exact held.offers
    · by_cases here : i = j
      · subst here
        rw [List.getElem?_set_self within] at there
        obtain rfl := Option.some.inj there
        exact iff_of_true (c.execute_crossed input boundary) (Finset.mem_insert_self _ _)
      · rw [List.getElem?_set_ne here] at there
        have other : j ∈ insert i r.used ↔ j ∈ r.used :=
          Finset.mem_insert.trans (or_iff_right (Ne.symm here))
        exact (held.used j d there).trans other.symm
    · rw [List.length_set]
      rcases Finset.mem_insert.mp used with rfl | old
      · exact within
      · exact held.bounded j old

theorem close (held : Registered closures e r) {g : FFIGuard} {c : SealedClosure Input Output}
    (found : closures[g.closure]? = some c) (now : UInt64) :
    (r.answer (.close g.closure)).2 = .closed (g.crossingRecord c now).success ∧
      Registered closures (g.destroy c e now) (r.answer (.close g.closure)).1 := by
  have success : (!decide (g.closure ∈ r.used)) = !c.crossed := by
    rw [Bool.eq_iff_iff, Bool.not_eq_true', Bool.not_eq_true', decide_eq_false_iff_not,
      ← held.used g.closure c found, Bool.not_eq_true]
  refine ⟨congrArg Response.closed success, held.offers, held.used, held.bounded, ?_⟩
  rw [Registry.answer, held.offer_found found, success, held.log, FFIGuard.destroy,
    SedonaSpineEnforcer.recordCrossing, List.map_append]
  rfl

end Registered

abbrev Exchanged (Input Output : Type) := Request Input Output × Response Output

def logged (e : SedonaSpineEnforcer) : List (Bytes × Bool) :=
  e.records.map fun record => (record.closureName, record.success)

/-! ## Guards in any order -/

namespace Store

def shows (s : Store Input Output) : Op Input Output → Option (Exchanged Input Output)
  | .create fn name => some (.offer (fun input => SealedClosure.answer (fn input)) name, .offered)
  | .guard _ _ => none
  | .execute k input =>
      (s.lookup k).map fun (g, c) => (.cross g.closure input, .crossed (g.execute c input).1)
  | .destroy k now =>
      (s.lookup k).map fun (g, c) => (.close g.closure, .closed (g.crossingRecord c now).success)

theorem step_followed (s : Store Input Output) (r : Registry Input Output)
    (op : Op Input Output) (next : Store Input Output) (held : Registered s.closures s.enforcer r)
    (taken : s.step op = some next) :
    Follows Registry.answer (fun s r => Registered s.closures s.enforcer r) next r (s.shows op) := by
  cases op with
  | create fn name =>
      obtain rfl := Option.some.inj taken
      exact ⟨rfl, held.create fn name⟩
  | guard closure boundary =>
      rw [step] at taken
      split at taken
      · obtain rfl := Option.some.inj taken
        exact held
      · cases taken
  | execute k input =>
      obtain ⟨⟨g, c⟩, looked, rfl⟩ := Option.map_eq_some_iff.mp taken
      rw [shows, looked]
      exact held.cross (lookup_eq_some_iff.mp looked).2.2 input g.boundary
  | destroy k now =>
      obtain ⟨⟨g, c⟩, looked, rfl⟩ := Option.map_eq_some_iff.mp taken
      rw [shows, looked]
      exact held.close (lookup_eq_some_iff.mp looked).2.2 now

theorem registered_empty :
    Registered (Store.empty : Store Input Output).closures .new Registry.empty where
  offers := rfl
  used := by simp [Store.empty]
  bounded := by simp [Registry.empty]
  log := rfl

theorem run_registered {ops : List (Op Input Output)} {s : Store Input Output}
    (ran : run step empty ops = some s) :
    shown step shows empty ops =
        (serve Registry.answer .empty ((shown step shows empty ops).map Prod.fst)).1 ∧
      logged s.enforcer =
        (serve Registry.answer .empty ((shown step shows empty ops).map Prod.fst)).2.log := by
  obtain ⟨events, held⟩ := run_served _ step_followed registered_empty ran
  exact ⟨events, held.log.symm⟩

def executedTwice : List (Op UInt64 UInt64) :=
  [.create .done (str "f"), .guard 0 .native, .execute 0 7, .execute 0 8, .destroy 0 10]

theorem run_registered_twice : ∃ s, run step empty executedTwice = some s ∧
    (shown step shows empty executedTwice).map Prod.snd =
      [.offered, .crossed (some 7), .crossed none, .closed false] ∧
    logged s.enforcer = (serve Registry.answer .empty
      ((shown step shows empty executedTwice).map Prod.fst)).2.log :=
  ⟨_, rfl, rfl, (run_registered rfl).2⟩

end Store

/-! ## Clients in any order -/

namespace World

def actShows (w : World Input Output) : Phase → Action Input → Option (Exchanged Input Output)
  | .guarded g, .execute input =>
      w.closures[g.closure]?.map fun c => (.cross g.closure input, .crossed (g.execute c input).1)
  | .executed g, .destroy now =>
      w.closures[g.closure]?.map fun c =>
        (.close g.closure, .closed (g.crossingRecord c now).success)
  | _, _ => none

def shows (w : World Input Output) (turn : Nat × Action Input) : Option (Exchanged Input Output) :=
  w.clients[turn.1]?.bind fun phase => w.actShows phase turn.2

theorem act_shows {w moved : World Input Output} {phase next : Phase} {action : Action Input}
    (taken : w.act phase action = some (moved, next)) :
    (moved = w ∧ (∀ g, next ≠ .executed g) ∧ w.actShows phase action = none) ∨
      (∃ g c input, w.closures[g.closure]? = some c ∧ next = .executed g ∧
        moved = { w with closures := w.closures.set g.closure (g.execute c input).2 } ∧
        w.actShows phase action = some (.cross g.closure input, .crossed (g.execute c input).1)) ∨
      (∃ g c now, phase = .executed g ∧ w.closures[g.closure]? = some c ∧ next = .idle ∧
        moved = { w with enforcer := g.destroy c w.enforcer now } ∧
        w.actShows phase action =
          some (.close g.closure, .closed (g.crossingRecord c now).success)) := by
  cases phase with
  | idle =>
      cases action with
      | validate i boundary expectedType =>
          obtain ⟨c, -, same⟩ := Option.map_eq_some_iff.mp taken
          obtain ⟨rfl, rfl⟩ := Prod.mk.inj same
          refine .inl ⟨rfl, fun g => ?_, rfl⟩
          split <;> exact Phase.noConfusion
      | _ => cases taken
  | validated i boundary =>
      cases action with
      | build =>
          obtain ⟨rfl, rfl⟩ := Prod.mk.inj (Option.some.inj taken)
          exact .inl ⟨rfl, fun g => Phase.noConfusion, rfl⟩
      | _ => cases taken
  | guarded g =>
      cases action with
      | execute input =>
          obtain ⟨c, found, same⟩ := Option.map_eq_some_iff.mp taken
          obtain ⟨rfl, rfl⟩ := Prod.mk.inj same
          refine .inr (.inl ⟨g, c, input, found, rfl, rfl, ?_⟩)
          rw [actShows, found, Option.map_some]
      | _ => cases taken
  | executed g =>
      cases action with
      | destroy now =>
          obtain ⟨c, found, same⟩ := Option.map_eq_some_iff.mp taken
          obtain ⟨rfl, rfl⟩ := Prod.mk.inj same
          refine .inr (.inr ⟨g, c, now, rfl, found, rfl, rfl, ?_⟩)
          rw [actShows, found, Option.map_some]
      | _ => cases taken

theorem step_followed (w : World Input Output) (r : Registry Input Output)
    (turn : Nat × Action Input) (after : World Input Output)
    (held : Registered w.closures w.enforcer r) (taken : w.step turn = some after) :
    Follows Registry.answer (fun w r => Registered w.closures w.enforcer r) after r
      (w.shows turn) := by
  obtain ⟨phase, moved, next, there, acted, rfl⟩ := step_eq_some_iff.mp taken
  rw [shows, there, Option.bind_some]
  rcases act_shows acted with ⟨rfl, -, hidden⟩ | ⟨g, c, input, found, -, rfl, visible⟩ |
    ⟨g, c, now, -, found, -, rfl, visible⟩
  · rw [hidden]
    exact held
  · rw [visible]
    exact held.cross found input g.boundary
  · rw [visible]
    exact held.close found now

/-- The registry in which the clients find the closures. -/
def offered (specs : List ((Input → Body Input Output) × Bytes)) : Registry Input Output :=
  { offers := specs.map fun (fn, name) => (fun input => SealedClosure.answer (fn input), name),
    used := ∅, log := [] }

theorem registered_start (specs : List ((Input → Body Input Output) × Bytes)) (clients : Nat) :
    Registered (start specs clients).closures (start specs clients).enforcer (offered specs) where
  offers := by
    rw [offered, start, List.map_map]
    rfl
  used := by
    intro i c found
    obtain ⟨spec, -, rfl⟩ := List.mem_map.mp (List.mem_of_getElem? found)
    exact iff_of_false Bool.false_ne_true (Finset.notMem_empty i)
  bounded := by simp [offered]
  log := rfl

/-- However the steps of the clients are mixed, what they are answered and what is logged is what the
registry answers and logs for their crossings one after the other. -/
theorem clients_registered {specs : List ((Input → Body Input Output) × Bytes)} {clients : Nat}
    {turns : List (Nat × Action Input)} {w : World Input Output}
    (ran : run step (start specs clients) turns = some w) :
    shown step shows (start specs clients) turns = (serve Registry.answer (offered specs)
        ((shown step shows (start specs clients) turns).map Prod.fst)).1 ∧
      logged w.enforcer = (serve Registry.answer (offered specs)
        ((shown step shows (start specs clients) turns).map Prod.fst)).2.log := by
  obtain ⟨events, held⟩ := run_served _ step_followed (registered_start specs clients) ran
  exact ⟨events, held.log.symm⟩

def race : List (Nat × Action UInt64) :=
  [(0, .validate 0 .runtime []), (1, .validate 0 .native []), (1, .build), (0, .build),
    (1, .execute 8), (0, .execute 7), (0, .destroy 10), (1, .destroy 11)]

theorem clients_registered_race : ∃ w, run step (start [(.done, str "f")] 2) race = some w ∧
    (shown step shows (start [(.done, str "f")] 2) race).map Prod.snd =
      [.crossed (some 8), .crossed none, .closed false, .closed false] ∧
    logged w.enforcer = (serve Registry.answer (offered [(.done, str "f")])
      ((shown step shows (start [(.done, str "f")] 2) race).map Prod.fst)).2.log :=
  ⟨_, rfl, rfl, (clients_registered rfl).2⟩

/-! ## Names are never sealed -/

def Used (closures : List (SealedClosure Input Output)) (i : Nat) : Prop :=
  ∃ c, closures[i]? = some c ∧ c.crossed = true

theorem Used.set {closures : List (SealedClosure Input Output)} {i j : Nat} (used : Used closures i)
    {c : SealedClosure Input Output} (crossed : c.crossed = true) : Used (closures.set j c) i := by
  obtain ⟨d, found, crossed'⟩ := used
  by_cases here : j = i
  · subst here
    exact ⟨c, List.getElem?_set_self (List.getElem?_eq_some_iff.mp found).1, crossed⟩
  · exact ⟨d, (List.getElem?_set_ne here).trans found, crossed'⟩

/-- A client destroys its guard after the closure has been crossed, so no record is a success. -/
structure Unsealed (w : World Input Output) : Prop where
  quiet : Quiet w.enforcer
  executed : ∀ g, .executed g ∈ w.clients → Used w.closures g.closure

theorem step_unsealed {w after : World Input Output} {turn : Nat × Action Input}
    (held : Unsealed w) (taken : w.step turn = some after) : Unsealed after := by
  obtain ⟨phase, moved, next, there, acted, rfl⟩ := step_eq_some_iff.mp taken
  rcases act_shows acted with ⟨rfl, other, -⟩ | ⟨g, c, input, found, rfl, rfl, -⟩ |
    ⟨g, c, now, rfl, found, rfl, rfl, -⟩
  · refine ⟨held.quiet, fun g member => ?_⟩
    rcases List.mem_or_eq_of_mem_set member with old | new
    · exact held.executed g old
    · exact absurd new.symm (other g)
  · have crossed := c.execute_crossed input g.boundary
    refine ⟨held.quiet, fun g' member => ?_⟩
    rcases List.mem_or_eq_of_mem_set member with old | new
    · exact (held.executed g' old).set crossed
    · obtain rfl := Phase.executed.inj new
      exact ⟨_, List.getElem?_set_self (List.getElem?_eq_some_iff.mp found).1, crossed⟩
  · obtain ⟨d, found', crossed⟩ := held.executed g (List.mem_of_getElem? there)
    obtain rfl := Option.some.inj (found.symm.trans found')
    refine ⟨held.quiet.destroy g crossed now, fun g' member => ?_⟩
    rcases List.mem_or_eq_of_mem_set member with old | new
    · exact held.executed g' old
    · cases new

/-- Whatever has crossed, the enforcer answers as if nothing had. -/
theorem never_sealed {specs : List ((Input → Body Input Output) × Bytes)} {clients : Nat}
    {w : World Input Output} (reached : Reachable step (start specs clients) w) (name : Bytes)
    (boundary : FFIBoundary) (expectedType : Bytes) :
    w.enforcer.isSealed name = false ∧
      w.enforcer.validateCrossing name boundary expectedType =
        SedonaSpineEnforcer.new.validateCrossing name boundary expectedType := by
  have unsealed : Unsealed w := by
    refine reached.invariant Unsealed ⟨by simp [Quiet, start, SedonaSpineEnforcer.new], ?_⟩
      fun _ _ _ => step_unsealed
    intro g member
    cases List.eq_of_mem_replicate member
  have open_yet : w.enforcer.isSealed name = false := by
    rw [SedonaSpineEnforcer.isSealed, List.any_eq_false]
    intro record member
    rw [unsealed.quiet record member, Bool.and_false]
    exact Bool.false_ne_true
  exact ⟨open_yet, SedonaSpineEnforcer.validateCrossing_congr open_yet boundary expectedType⟩

theorem never_sealed_race : ∃ w : World UInt64 UInt64,
    run step (start [(.done, str "f")] 2) race = some w ∧ w.enforcer.records.length = 2 ∧
      w.enforcer.isSealed (str "f") = false ∧
      w.enforcer.validateCrossing (str "f") .runtime [] = true := by
  obtain ⟨w, ran, two⟩ : ∃ w : World UInt64 UInt64,
      run step (start [(.done, str "f")] 2) race = some w ∧ w.enforcer.records.length = 2 :=
    ⟨_, rfl, rfl⟩
  obtain ⟨unsealed, allowed⟩ := never_sealed ⟨race, ran⟩ (str "f") .runtime []
  exact ⟨w, ran, two, unsealed, allowed⟩

end World
end SovereignPirtm.Spine
