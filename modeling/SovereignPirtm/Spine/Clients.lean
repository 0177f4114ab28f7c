import SovereignPirtm.Library.Transition
import SovereignPirtm.Spine.SedonaSpine

/-!
# Clients that ask before they cross

Clients share the closures and the enforcer. Each of them validates a crossing, builds a guard,
executes it and destroys it, and the steps of different clients come in any order.
-/

namespace SovereignPirtm.Spine
open Library

inductive Phase where
  | idle
  | validated (closure : Nat) (boundary : FFIBoundary)
  | guarded (guard : FFIGuard)
  | executed (guard : FFIGuard)

inductive Action (Input : Type) where
  | validate (closure : Nat) (boundary : FFIBoundary) (expectedType : Bytes)
  | build
  | execute (input : Input)
  | destroy (now : UInt64)

structure World (Input Output : Type) where
  closures : List (SealedClosure Input Output)
  enforcer : SedonaSpineEnforcer
  clients : List Phase

variable {Input Output : Type}

namespace World

def start (specs : List ((Input → Body Input Output) × Bytes)) (clients : Nat) :
    World Input Output :=
  { closures := specs.map fun (fn, name) => .new fn name, enforcer := .new,
    clients := List.replicate clients .idle }

def act (w : World Input Output) : Phase → Action Input → Option (World Input Output × Phase)
  | .idle, .validate i boundary expectedType =>
      w.closures[i]?.map fun c =>
        (w, if w.enforcer.validateCrossing c.name boundary expectedType then .validated i boundary
          else .idle)
  | .validated i boundary, .build => some (w, .guarded (.new i boundary))
  | .guarded g, .execute input =>
      w.closures[g.closure]?.map fun c =>
        ({ w with closures := w.closures.set g.closure (g.execute c input).2 }, .executed g)
  | .executed g, .destroy now =>
      w.closures[g.closure]?.map fun c =>
        ({ w with enforcer := g.destroy c w.enforcer now }, .idle)
  | _, _ => none

def step (w : World Input Output) (turn : Nat × Action Input) : Option (World Input Output) :=
  w.clients[turn.1]?.bind fun phase =>
    (w.act phase turn.2).map fun (w, next) => { w with clients := w.clients.set turn.1 next }

def SingleCrossing (w : World Input Output) : Prop :=
  ∀ i j : Nat, ∀ c d : SealedClosure Input Output,
    w.closures[i]? = some c → w.closures[j]? = some d → i ≠ j → c.name = d.name →
      ¬ (0 < c.invocations ∧ 0 < d.invocations)

/-! ## What a step changes -/

theorem act_cases {w w' : World Input Output} {phase next : Phase} {action : Action Input}
    (taken : w.act phase action = some (w', next)) :
    w' = w ∨
      (∃ g c input, phase = .guarded g ∧ w.closures[g.closure]? = some c ∧
        w' = { w with closures := w.closures.set g.closure (g.execute c input).2 }) ∨
      (∃ g c now, phase = .executed g ∧ w.closures[g.closure]? = some c ∧
        w' = { w with enforcer := g.destroy c w.enforcer now }) := by
  cases phase with
  | idle =>
      cases action with
      | validate i boundary expectedType =>
          obtain ⟨c, -, same⟩ := Option.map_eq_some_iff.mp taken
          exact .inl (congrArg Prod.fst same).symm
      | _ => cases taken
  | validated i boundary =>
      cases action with
      | build => exact .inl (congrArg Prod.fst (Option.some.inj taken)).symm
      | _ => cases taken
  | guarded g =>
      cases action with
      | execute input =>
          obtain ⟨c, found, same⟩ := Option.map_eq_some_iff.mp taken
          exact .inr (.inl ⟨g, c, input, rfl, found, (congrArg Prod.fst same).symm⟩)
      | _ => cases taken
  | executed g =>
      cases action with
      | destroy now =>
          obtain ⟨c, found, same⟩ := Option.map_eq_some_iff.mp taken
          exact .inr (.inr ⟨g, c, now, rfl, found, (congrArg Prod.fst same).symm⟩)
      | _ => cases taken

theorem act_names {w w' : World Input Output} {phase next : Phase} {action : Action Input}
    (taken : w.act phase action = some (w', next)) :
    w'.closures.map SealedClosure.name = w.closures.map SealedClosure.name := by
  rcases act_cases taken with rfl | ⟨g, c, input, -, found, rfl⟩ | ⟨_, _, _, -, -, rfl⟩
  · rfl
  · exact map_set_same SealedClosure.name found (c.execute_name input g.boundary)
  · rfl

theorem step_eq_some_iff {w w' : World Input Output} {k : Nat} {action : Action Input} :
    w.step (k, action) = some w' ↔ ∃ phase moved next, w.clients[k]? = some phase ∧
      w.act phase action = some (moved, next) ∧
      w' = { moved with clients := moved.clients.set k next } := by
  constructor
  · intro taken
    obtain ⟨phase, turn, taken⟩ := Option.bind_eq_some_iff.mp taken
    obtain ⟨⟨moved, next⟩, acted, rfl⟩ := Option.map_eq_some_iff.mp taken
    exact ⟨phase, moved, next, turn, acted, rfl⟩
  · rintro ⟨phase, moved, next, turn, acted, rfl⟩
    rw [step, turn, Option.bind_some, acted]
    rfl

theorem reachable_names {w w' : World Input Output} (reached : Reachable step w w') :
    w'.closures.map SealedClosure.name = w.closures.map SealedClosure.name := by
  refine reached.invariant
    (fun v => v.closures.map SealedClosure.name = w.closures.map SealedClosure.name) rfl ?_
  rintro before ⟨k, action⟩ after same taken
  obtain ⟨phase, moved, next, -, acted, rfl⟩ := step_eq_some_iff.mp taken
  exact (act_names acted).trans same

theorem reachable_idle {w w' : World Input Output} (alone : w.clients = [])
    (reached : Reachable step w w') : w' = w := by
  refine reached.invariant (fun v => v = w) rfl ?_
  rintro before ⟨k, action⟩ after rfl taken
  obtain ⟨phase, moved, next, turn, -, -⟩ := step_eq_some_iff.mp taken
  rw [alone] at turn
  cases turn

/-! ## Crossings that are never turned away -/

def Quiet (e : SedonaSpineEnforcer) : Prop := ∀ record ∈ e.records, record.success = false

theorem Quiet.validate_runtime {e : SedonaSpineEnforcer} (quiet : Quiet e)
    (closureName expectedType : Bytes) :
    e.validateCrossing closureName .runtime expectedType = true := by
  have unsealed : ¬ (e.records.any fun record =>
      record.closureName == closureName && record.success) = true := by
    rw [List.any_eq_true]
    rintro ⟨record, member, sealed⟩
    rw [quiet record member, Bool.and_false] at sealed
    cases sealed
  rw [SedonaSpineEnforcer.validateCrossing, if_neg unsealed]

theorem Quiet.destroy {e : SedonaSpineEnforcer} (quiet : Quiet e) (g : FFIGuard)
    {c : SealedClosure Input Output} (crossed : c.crossed = true) (now : UInt64) :
    Quiet (g.destroy c e now) := by
  intro record member
  rcases List.mem_append.mp member with old | new
  · exact quiet record old
  · rw [List.mem_singleton.mp new, FFIGuard.crossingRecord, crossed]
    rfl

/-- An idle client can take any closure through a whole crossing, and the log keeps no success. -/
theorem cross {w : World Input Output} (quiet : Quiet w.enforcer) {k i : Nat}
    (idle : w.clients[k]? = some .idle) {c : SealedClosure Input Output}
    (found : w.closures[i]? = some c) (input : Input) :
    ∃ w', Reachable step w w' ∧ w'.closures = w.closures.set i (c.execute input .runtime).2 ∧
      w'.clients = w.clients ∧ Quiet w'.enforcer := by
  obtain ⟨within, -⟩ := List.getElem?_eq_some_iff.mp idle
  have turn (phase : Phase) : (w.clients.set k phase)[k]? = some phase :=
    List.getElem?_set_self within
  have again (first second : Phase) :
      (w.clients.set k first).set k second = w.clients.set k second := List.set_set first
  let executed := (c.execute input .runtime).2
  have there : (w.closures.set i executed)[i]? = some executed :=
    List.getElem?_set_self (List.getElem?_eq_some_iff.mp found).1
  have validated : w.step (k, .validate i .runtime []) =
      some { w with clients := w.clients.set k (.validated i .runtime) } :=
    step_eq_some_iff.mpr ⟨_, w, _, idle, by rw [act, found, Option.map_some,
      quiet.validate_runtime, if_pos rfl], rfl⟩
  have guarded : World.step { w with clients := w.clients.set k (.validated i .runtime) }
      (k, .build) = some { w with clients := w.clients.set k (.guarded (.new i .runtime)) } :=
    step_eq_some_iff.mpr ⟨_, _, _, turn _, rfl, by rw [again]⟩
  have crossed : World.step { w with clients := w.clients.set k (.guarded (.new i .runtime)) }
      (k, .execute input) = some { w with
        closures := w.closures.set i executed,
        clients := w.clients.set k (.executed (.new i .runtime)) } :=
    step_eq_some_iff.mpr ⟨_, _, _, turn _, Option.map_eq_some_iff.mpr ⟨c, found, rfl⟩,
      by rw [again]; rfl⟩
  have destroyed : World.step { w with
        closures := w.closures.set i executed,
        clients := w.clients.set k (.executed (.new i .runtime)) } (k, .destroy 0) = some
      { closures := w.closures.set i executed,
        enforcer := (FFIGuard.new i .runtime).destroy executed w.enforcer 0,
        clients := w.clients.set k .idle } :=
    step_eq_some_iff.mpr ⟨_, _, _, turn _, Option.map_eq_some_iff.mpr ⟨executed, there, rfl⟩,
      by rw [again]⟩
  refine ⟨_, .head validated (.head guarded (.head crossed (.single destroyed))), rfl, ?_, ?_⟩
  · obtain ⟨within, same⟩ := List.getElem?_eq_some_iff.mp idle
    rw [← same]
    exact List.set_getElem_self within
  · exact quiet.destroy _ (c.execute_crossed input .runtime) 0

theorem cross_both {w : World Input Output} (quiet : Quiet w.enforcer) {k i j : Nat}
    (idle : w.clients[k]? = some .idle) (different : i ≠ j) {c d : SealedClosure Input Output}
    (found_c : w.closures[i]? = some c) (found_d : w.closures[j]? = some d)
    (unused_c : c.crossed = false) (unused_d : d.crossed = false) (input : Input) :
    ∃ w' c' d', Reachable step w w' ∧ w'.closures[i]? = some c' ∧ w'.closures[j]? = some d' ∧
      c'.name = c.name ∧ d'.name = d.name ∧ 0 < c'.invocations ∧ 0 < d'.invocations := by
  obtain ⟨w₁, reached₁, closures₁, clients₁, quiet₁⟩ := cross quiet idle found_c input
  have found_d₁ : w₁.closures[j]? = some d := by
    rw [closures₁, List.getElem?_set_ne different, found_d]
  obtain ⟨w₂, reached₂, closures₂, -, -⟩ := cross quiet₁ (clients₁ ▸ idle) found_d₁ input
  have there_c : w₂.closures[i]? = some (c.execute input .runtime).2 := by
    rw [closures₂, List.getElem?_set_ne different.symm, closures₁]
    exact List.getElem?_set_self (List.getElem?_eq_some_iff.mp found_c).1
  have there_d : w₂.closures[j]? = some (d.execute input .runtime).2 := by
    rw [closures₂]
    exact List.getElem?_set_self (List.getElem?_eq_some_iff.mp found_d₁).1
  refine ⟨w₂, _, _, reached₁.trans reached₂, there_c, there_d, c.execute_name _ _,
    d.execute_name _ _, ?_, ?_⟩
  · rw [SealedClosure.execute_invocations, unused_c]
    exact Nat.succ_pos _
  · rw [SealedClosure.execute_invocations, unused_d]
    exact Nat.succ_pos _

/-! ## The system -/

theorem start_names (specs : List ((Input → Body Input Output) × Bytes)) (clients : Nat) :
    (start specs clients).closures.map SealedClosure.name = specs.map Prod.snd := by
  rw [start, List.map_map]
  rfl

theorem start_closures {specs : List ((Input → Body Input Output) × Bytes)} (clients : Nat)
    {i : Nat} (within : i < specs.length) : (start specs clients).closures[i]? =
      some (.new specs[i].1 specs[i].2) := by
  simp [start, within]

/-- Closures of one name are kept from crossing twice when there is nobody to cross, or when no two
closures share a name. -/
theorem singleCrossing_iff [Inhabited Input] (specs : List ((Input → Body Input Output) × Bytes))
    (clients : Nat) :
    (∀ w, Reachable step (start specs clients) w → SingleCrossing w) ↔
      clients = 0 ∨ (specs.map Prod.snd).Nodup := by
  constructor
  · intro single
    by_contra! shared
    obtain ⟨some_client, repeated⟩ := shared
    rw [List.nodup_iff_getElem?_ne_getElem?] at repeated
    push Not at repeated
    obtain ⟨i, j, before, within, same⟩ := repeated
    rw [List.length_map] at within
    have idle : (start specs clients).clients[0]? = some .idle := by
      rw [start, List.getElem?_replicate, if_pos (Nat.pos_of_ne_zero some_client)]
    have names : specs[i].2 = specs[j].2 := by
      simpa [within, before.trans within] using same
    obtain ⟨w, c, d, reached, found_c, found_d, name_c, name_d, invoked_c, invoked_d⟩ :=
      cross_both (by simp [Quiet, start, SedonaSpineEnforcer.new]) idle before.ne
        (start_closures clients (before.trans within)) (start_closures clients within) rfl rfl
        default
    have one_name : c.name = d.name := name_c.trans (names.trans name_d.symm)
    exact single w reached i j c d found_c found_d before.ne one_name ⟨invoked_c, invoked_d⟩
  · rintro (rfl | distinct) w reached i j c d found_c found_d different same ⟨invoked, -⟩
    · rw [reachable_idle rfl reached] at found_c
      obtain ⟨spec, -, rfl⟩ := List.mem_map.mp (List.mem_of_getElem? found_c)
      exact absurd invoked (Nat.lt_irrefl 0)
    · rw [← start_names specs clients, ← reachable_names reached] at distinct
      obtain ⟨within, -⟩ := List.getElem?_eq_some_iff.mp found_c
      refine different ((List.getElem?_inj (by simpa using within) distinct).mp ?_)
      rw [List.getElem?_map, List.getElem?_map, found_c, found_d, Option.map_some, same,
        Option.map_some]

def oneAfterTheOther : List (Nat × Action UInt64) :=
  [0, 1].flatMap fun i =>
    [(0, .validate i .runtime []), (0, .build), (0, .execute 7), (0, .destroy 10)]

theorem not_singleCrossing_oneAfterTheOther :
    ∃ w, run step (start [(.done, str "f"), (.done, str "f")] 1) oneAfterTheOther = some w ∧
      ¬ SingleCrossing (w : World UInt64 UInt64) :=
  ⟨_, rfl, fun single => single 0 1 _ _ rfl rfl (by decide) rfl ⟨by decide, by decide⟩⟩

end World
end SovereignPirtm.Spine
