import SovereignPirtm.Lowering.Emission

/-!
# What circuits keep

The invariant of a circuit over any sequence of calls, and the classical bits, which no call looks
at.
-/

namespace SovereignPirtm.Lowering.Circuit

structure WellFormed (c : Circuit) : Prop where
  gates : ∀ g ∈ c.gates, g.InRegister c.numQubits
  measured : ∀ m ∈ c.measurements, m.qubit.index < c.numQubits
  distinct : (c.measurements.map Measurement.qubit).Nodup

def attach (c : Circuit) : Call → Circuit
  | .addGate gate => { c with gates := c.gates ++ [gate] }
  | .addMeasurement qubit classicalBit =>
      { c with measurements := c.measurements ++ [⟨qubit, classicalBit⟩] }

def Admits (c : Circuit) : Call → Prop
  | .addGate gate => gate.InRegister c.numQubits
  | .addMeasurement qubit _ => qubit.index < c.numQubits ∧ ∀ m ∈ c.measurements, m.qubit ≠ qubit

/-! ## One call -/

theorem call_cases (c : Circuit) (k : Call) :
    (c.Admits k ∧ c.call k = (.ok (), c.attach k)) ∨
      (¬ c.Admits k ∧ ∃ e, c.call k = (.error e, c)) := by
  cases k with
  | addGate gate =>
      rw [call, addGate_eq]
      by_cases inside : gate.InRegister c.numQubits
      · exact .inl ⟨inside, by rw [if_pos inside, Gate.check_ok_iff.mpr inside, attach]⟩
      · refine .inr ⟨inside, ?_⟩
        rw [if_neg inside]
        cases checked : gate.check c.numQubits with
        | error e => exact ⟨e, rfl⟩
        | ok => exact absurd (Gate.check_ok_iff.mp checked) inside
  | addMeasurement qubit classicalBit =>
      rw [call, addMeasurement]
      cases checked : qubit.check c.numQubits with
      | error e =>
          refine .inr ⟨fun fresh => ?_, e, rfl⟩
          rw [Qubit.check_ok_iff.mpr fresh.1] at checked
          cases checked
      | ok =>
          dsimp only
          split
          · rename_i measured
            obtain ⟨m, member, same⟩ := List.any_eq_true.mp measured
            exact .inr ⟨fun fresh => fresh.2 m member (of_decide_eq_true same), _, rfl⟩
          · rename_i unmeasured
            refine .inl ⟨⟨Qubit.check_ok_iff.mp checked, fun m member same => unmeasured ?_⟩, rfl⟩
            exact List.any_eq_true.mpr ⟨m, member, decide_eq_true same⟩

theorem attach_wellFormed_iff {c : Circuit} (held : c.WellFormed) (k : Call) :
    (c.attach k).WellFormed ↔ c.Admits k := by
  cases k with
  | addGate gate =>
      constructor
      · intro extended
        exact extended.gates gate (by simp [attach])
      · intro inside
        refine ⟨?_, held.measured, held.distinct⟩
        intro g member
        rcases List.mem_append.mp member with old | new
        · exact held.gates g old
        · exact List.mem_singleton.mp new ▸ inside
  | addMeasurement qubit classicalBit =>
      constructor
      · intro extended
        refine ⟨extended.measured ⟨qubit, classicalBit⟩ (by simp [attach]), fun m member same => ?_⟩
        have distinct := extended.distinct
        rw [attach, List.map_append, List.nodup_append] at distinct
        exact distinct.2.2 m.qubit (List.mem_map_of_mem member) qubit (by simp) same
      · rintro ⟨inside, unmeasured⟩
        refine ⟨held.gates, ?_, ?_⟩
        · intro m member
          rcases List.mem_append.mp member with old | new
          · exact held.measured m old
          · exact List.mem_singleton.mp new ▸ inside
        · rw [attach, List.map_append, List.nodup_append]
          refine ⟨held.distinct, List.nodup_singleton _, ?_⟩
          intro q old q' new same
          obtain ⟨m, member, rfl⟩ := List.mem_map.mp old
          exact unmeasured m member (same.trans (List.mem_singleton.mp new))

/-! ## Sequences of calls -/

/-- The circuit is well formed and has its registers, and its next call succeeds with the new gate
or measurement in place, or fails, without effect, because they would break the circuit. -/
structure Kept (numQubits numClassicalBits : Nat) (c : Circuit) : Prop where
  wellFormed : c.WellFormed
  numQubits : c.numQubits = numQubits
  numClassicalBits : c.numClassicalBits = numClassicalBits
  call : ∀ k, ((c.attach k).WellFormed ∧ c.call k = (.ok (), c.attach k)) ∨
    (¬ (c.attach k).WellFormed ∧ ∃ e, c.call k = (.error e, c))

theorem new_wellFormed (n m : Nat) : (new n m).WellFormed :=
  ⟨by simp [new], by simp [new], by simp [new]⟩

@[simp] theorem attach_numQubits (c : Circuit) (k : Call) :
    (c.attach k).numQubits = c.numQubits := by
  cases k <;> rfl

@[simp] theorem attach_numClassicalBits (c : Circuit) (k : Call) :
    (c.attach k).numClassicalBits = c.numClassicalBits := by
  cases k <;> rfl

theorem Kept.of_wellFormed {c : Circuit} (held : c.WellFormed) :
    Kept c.numQubits c.numClassicalBits c := by
  refine ⟨held, rfl, rfl, fun k => ?_⟩
  rw [attach_wellFormed_iff held]
  exact c.call_cases k

theorem Kept.next {n m : Nat} {c : Circuit} (held : Kept n m c) (k : Call) :
    Kept n m (c.call k).2 := by
  rcases held.call k with ⟨fine, called⟩ | ⟨-, e, called⟩
  · have later := Kept.of_wellFormed fine
    rw [attach_numQubits, attach_numClassicalBits, held.numQubits, held.numClassicalBits] at later
    rwa [called]
  · rwa [called]

theorem calls_concat (c : Circuit) (calls : List Call) (k : Call) :
    c.calls (calls ++ [k]) = ((c.calls calls).call k).2 := by
  rw [Circuit.calls, List.foldl_concat, Circuit.calls]

theorem calls_kept (n m : Nat) (calls : List Call) : Kept n m ((new n m).calls calls) := by
  induction calls using List.reverseRecOn with
  | nil => exact Kept.of_wellFormed (new_wellFormed n m)
  | append_singleton calls k ih =>
      rw [calls_concat]
      exact ih.next k

theorem emitAll_circuit (s : Emission) (gates : List Gate) :
    (s.emitAll gates).circuit = s.circuit.calls (gates.map .addGate) := by
  induction gates generalizing s with
  | nil => rfl
  | cons g gates ih => exact ih (s.emit g)

theorem lowered_calls {p : PirtnProgram} {c : Circuit} (lowered : p.lowerToCircuit = .ok c) :
    ∃ calls, c = (new p.width p.width).calls calls := by
  obtain ⟨-, -, rfl⟩ := PirtnProgram.lowerToCircuit_ok_iff.mp lowered
  refine ⟨(p.ops.flatMap (TensorOp.emits p.width)).map .addGate, ?_⟩
  rw [← emitAll_circuit ⟨.new p.width p.width, []⟩, Emission.emitAll_eq]
  rfl

theorem circuits_kept :
    (∀ n m calls, Kept n m ((new n m).calls calls)) ∧
      ∀ (p : PirtnProgram) (c : Circuit), p.lowerToCircuit = .ok c → Kept p.width p.width c := by
  refine ⟨calls_kept, fun p c lowered => ?_⟩
  obtain ⟨calls, rfl⟩ := lowered_calls lowered
  exact calls_kept p.width p.width calls

theorem circuits_kept_add :
    ∃ c, PirtnProgram.lowerToCircuit ⟨[.add 0 1 2], 3⟩ = .ok c ∧ Kept 3 3 c :=
  ⟨_, rfl, circuits_kept.2 ⟨[.add 0 1 2], 3⟩ _ rfl⟩

/-! ## Classical bits -/

def BitsApart (c : Circuit) : Prop :=
  (∀ m ∈ c.measurements, m.classicalBit < c.numClassicalBits) ∧
    (c.measurements.map Measurement.classicalBit).Nodup

instance : DecidablePred BitsApart := fun _ => inferInstanceAs (Decidable (_ ∧ _))

/-- The first call that measures the qubit, which is in the register, names the classical bit. -/
def Measures (n : Nat) (calls : List Call) (q : Qubit) (bit : Nat) : Prop :=
  q.index < n ∧ ∃ before after, calls = before ++ .addMeasurement q bit :: after ∧
    ∀ earlier, .addMeasurement q earlier ∉ before

theorem measures_concat_iff {n : Nat} {calls : List Call} {k : Call} {q : Qubit} {bit : Nat} :
    Measures n (calls ++ [k]) q bit ↔ Measures n calls q bit ∨
      (q.index < n ∧ k = .addMeasurement q bit ∧ ∀ earlier, .addMeasurement q earlier ∉ calls) := by
  constructor
  · rintro ⟨inside, before, after, split, first⟩
    induction after using List.reverseRecOn with
    | nil =>
        obtain ⟨rfl, last⟩ := List.append_inj' split rfl
        exact .inr ⟨inside, List.singleton_inj.mp last, first⟩
    | append_singleton after last _ =>
        rw [← List.cons_append, ← List.append_assoc] at split
        exact .inl ⟨inside, before, after, (List.append_inj' split rfl).1, first⟩
  · rintro (⟨inside, before, after, rfl, first⟩ | ⟨inside, rfl, first⟩)
    · exact ⟨inside, before, after ++ [k], by simp, first⟩
    · exact ⟨inside, calls, [], rfl, first⟩

theorem exists_measures_iff {n : Nat} {calls : List Call} {q : Qubit} (inside : q.index < n) :
    (∃ bit, Measures n calls q bit) ↔ ∃ bit, .addMeasurement q bit ∈ calls := by
  induction calls using List.reverseRecOn with
  | nil => simp [Measures]
  | append_singleton calls k ih =>
      simp only [measures_concat_iff, exists_or, ih, List.mem_append, List.mem_singleton]
      constructor
      · rintro (old | ⟨bit, -, rfl, -⟩)
        · exact .inl old
        · exact .inr ⟨bit, rfl⟩
      · rintro (old | ⟨bit, rfl⟩)
        · exact .inl old
        · by_cases first : ∀ earlier, .addMeasurement q earlier ∉ calls
          · exact .inr ⟨bit, inside, rfl, first⟩
          · push Not at first
            exact .inl first

theorem admits_measurement_iff {n : Nat} {calls : List Call} {c : Circuit}
    (qubits : c.numQubits = n)
    (recorded : ∀ q bit, ⟨q, bit⟩ ∈ c.measurements ↔ Measures n calls q bit)
    (q : Qubit) (bit : Nat) :
    c.Admits (.addMeasurement q bit) ↔
      q.index < n ∧ ∀ earlier, .addMeasurement q earlier ∉ calls := by
  rw [Admits, qubits]
  refine and_congr_right fun inside => ?_
  rw [← not_exists, ← exists_measures_iff inside]
  constructor
  · rintro fresh ⟨earlier, measures⟩
    exact fresh _ ((recorded q earlier).mpr measures) rfl
  · rintro unmeasured m member rfl
    exact unmeasured ⟨m.classicalBit, (recorded m.qubit m.classicalBit).mp member⟩

theorem mem_measurements_iff {n m : Nat} {calls : List Call} (q : Qubit) (bit : Nat) :
    ⟨q, bit⟩ ∈ ((new n m).calls calls).measurements ↔ Measures n calls q bit := by
  induction calls using List.reverseRecOn generalizing q bit with
  | nil => simp [Circuit.calls, new, Measures]
  | append_singleton calls k ih =>
      have admits := admits_measurement_iff (calls_kept n m calls).numQubits ih
      rw [calls_concat, measures_concat_iff, ← ih]
      rcases call_cases ((new n m).calls calls) k with ⟨fine, called⟩ | ⟨refused, e, called⟩
      · rw [called]
        cases k with
        | addGate gate => simp [attach]
        | addMeasurement q' bit' =>
            obtain ⟨inside, first⟩ := (admits q' bit').mp fine
            rw [attach, List.mem_append, List.mem_singleton]
            apply or_congr_right
            constructor
            · intro same
              obtain ⟨rfl, rfl⟩ := Measurement.mk.inj same
              exact ⟨inside, rfl, first⟩
            · rintro ⟨-, same, -⟩
              obtain ⟨rfl, rfl⟩ := Call.addMeasurement.inj same
              rfl
      · rw [called]
        refine (or_iff_left ?_).symm
        rintro ⟨inside, rfl, first⟩
        exact refused ((admits q bit).mpr ⟨inside, first⟩)

theorem bitsApart_iff (n m : Nat) (calls : List Call) :
    BitsApart ((new n m).calls calls) ↔ (∀ q bit, Measures n calls q bit → bit < m) ∧
      ∀ q q' bit, Measures n calls q bit → Measures n calls q' bit → q = q' := by
  have kept := calls_kept n m calls
  have nodup := kept.wellFormed.distinct.of_map
  simp only [BitsApart, List.nodup_map_iff_inj_on nodup, kept.numClassicalBits,
    ← mem_measurements_iff (m := m)]
  constructor
  · rintro ⟨range, apart⟩
    exact ⟨fun q bit member => range _ member,
      fun q q' bit first second => congrArg Measurement.qubit (apart _ first _ second rfl)⟩
  · rintro ⟨range, apart⟩
    refine ⟨fun result member => range result.qubit result.classicalBit member, ?_⟩
    rintro ⟨q, bit⟩ first ⟨q', bit'⟩ second same
    obtain rfl : bit = bit' := same
    rw [apart q q' bit first second]

theorem not_bitsApart_shared :
    ¬ BitsApart ((new 2 2).calls [.addMeasurement ⟨0⟩ 0, .addMeasurement ⟨1⟩ 0]) ∧
      ¬ BitsApart ((new 2 2).calls [.addMeasurement ⟨0⟩ 7]) := by
  decide

end SovereignPirtm.Lowering.Circuit
