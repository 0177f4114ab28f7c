import Mathlib.Data.List.GetD
import SovereignPirtm.Library.Swaps
import SovereignPirtm.Lowering.Gates

/-!
# Where a `Permute` takes the contents of the wires

The swaps of a `Permute` exchange each wire with its target, one after the other, and this undoes
itself: only the axes that permute nothing are realised. What happens instead has a closed form.
-/

namespace SovereignPirtm.Lowering
open Library TensorOp

/-! ## Labelled wires -/

def Gate.moveContents {α : Type} (w : Nat → α) : Gate → Nat → α
  | .double .swap control target => w ∘ Equiv.swap control.index target.index
  | _ => w

def contents {α : Type} (gates : List Gate) (w : Nat → α) : Nat → α :=
  gates.foldl Gate.moveContents w

/-- Either the content of wire `i` is to end on wire `axes[i]`, or the content of wire `axes[i]` on
wire `i`. -/
inductive Convention where
  | sends
  | fetches

def Realises (convention : Convention) (n : Nat) (gates : List Gate) (axes : List Nat) : Prop :=
  (∀ i, ∀ within : i < axes.length, match convention with
    | .sends => contents gates id axes[i] = i
    | .fetches => contents gates id i = axes[i]) ∧
  ∀ j < n, axes.length ≤ j → contents gates id j = j

/-! ## The permutation of an axis list -/

section Axes
variable {axes : List Nat}

theorem axes_nodup (permutation : axes.Perm (List.range axes.length)) : axes.Nodup :=
  permutation.nodup_iff.mpr List.nodup_range

theorem mem_axes_iff (permutation : axes.Perm (List.range axes.length)) {i : Nat} :
    i ∈ axes ↔ i < axes.length :=
  permutation.mem_iff.trans List.mem_range

theorem exists_perm (permutation : axes.Perm (List.range axes.length)) :
    ∃ σ : Equiv.Perm (Fin axes.length), ∀ i, (σ i).val = axes[i.val] := by
  have inside (i : Fin axes.length) : axes[i.val] < axes.length :=
    (mem_axes_iff permutation).mp (List.getElem_mem i.isLt)
  have injective : Function.Injective fun i => (⟨axes[i.val], inside i⟩ : Fin axes.length) := by
    intro i j same
    exact Fin.ext ((axes_nodup permutation).getElem_inj_iff.mp (Fin.mk.inj same))
  exact ⟨Equiv.ofBijective _ (Finite.injective_iff_bijective.mp injective), fun _ => rfl⟩

variable {σ : Equiv.Perm (Fin axes.length)} (entry : ∀ i, (σ i).val = axes[i.val])
include entry

theorem zipIdx_eq : axes.zipIdx = (List.finRange axes.length).map fun i => ((σ i).val, i.val) := by
  apply List.ext_getElem
  · simp
  · intro i _ _
    simp [entry]

theorem eq_range_iff : axes = List.range axes.length ↔ σ = 1 := by
  constructor
  · intro same
    ext i
    rw [entry, Equiv.Perm.one_apply]
    have := List.getElem_of_eq same i.isLt
    simpa using this
  · rintro rfl
    apply List.ext_getElem
    · simp
    · intro i within _
      simpa using (entry ⟨i, within⟩).symm

end Axes

/-! ## Swaps on labelled wires -/

theorem contents_filterMap {α : Type} {n : Nat} {entries : List (Nat × Nat)}
    (inside : ∀ e ∈ entries, e.1 < n) (w : Nat → α) :
    contents (entries.filterMap fun (target, i) =>
        if i ≠ target ∧ target < n then some (.double .swap ⟨i⟩ ⟨target⟩) else none) w =
      entries.foldl (fun w e => w ∘ Equiv.swap e.2 e.1) w := by
  induction entries generalizing w with
  | nil => rfl
  | cons e entries ih =>
      obtain ⟨target, i⟩ := e
      rw [List.forall_mem_cons] at inside
      rw [List.foldl_cons, ← ih inside.2]
      by_cases moves : i = target
      · simp [moves]
      · simp only [moves, inside.1, List.filterMap_cons, ne_eq, not_false_eq_true, and_self,
          if_true]
        rfl

theorem foldl_swap_apply {α : Type} {k : Nat} (σ : Equiv.Perm (Fin k)) (points : List (Fin k))
    (w : Nat → α) (j : Fin k) :
    points.foldl (fun w i => w ∘ Equiv.swap i.val (σ i).val) w j.val =
      w (swapChain σ points j).val := by
  induction points generalizing w with
  | nil => rfl
  | cons i points ih =>
      rw [List.foldl_cons, ih, swapChain_cons, Equiv.Perm.mul_apply, Function.comp_apply,
        Fin.val_injective.swap_apply]

theorem foldl_swap_beyond {α : Type} {k : Nat} (σ : Equiv.Perm (Fin k)) (points : List (Fin k))
    (w : Nat → α) {j : Nat} (beyond : k ≤ j) :
    points.foldl (fun w i => w ∘ Equiv.swap i.val (σ i).val) w j = w j := by
  induction points generalizing w with
  | nil => rfl
  | cons i points ih =>
      rw [List.foldl_cons, ih, Function.comp_apply, Equiv.swap_apply_of_ne_of_ne]
      · omega
      · omega

section Swaps
variable {n : Nat} {axes : List Nat} {σ : Equiv.Perm (Fin axes.length)}
  (entry : ∀ i, (σ i).val = axes[i.val]) (fits : axes.length ≤ n)
include entry fits

theorem contents_swaps {α : Type} (w : Nat → α) :
    contents (swaps n axes) w =
      (List.finRange axes.length).foldl (fun w i => w ∘ Equiv.swap i.val (σ i).val) w := by
  have inside : ∀ e ∈ axes.zipIdx, e.1 < n := by
    rw [zipIdx_eq entry, List.forall_mem_map]
    exact fun i _ => (σ i).isLt.trans_le fits
  rw [swaps, contents_filterMap inside, zipIdx_eq entry, List.foldl_map]

theorem realises_swaps_iff (convention : Convention) :
    Realises convention n (swaps n axes) axes ↔ axes = List.range axes.length := by
  have nodup := List.nodup_finRange axes.length
  have inChain (j : Fin axes.length) :
      contents (swaps n axes) id j.val = (swapChain σ (List.finRange axes.length) j).val := by
    rw [contents_swaps entry fits, foldl_swap_apply, id_eq]
  have elsewhere : ∀ j < n, axes.length ≤ j → contents (swaps n axes) id j = j := by
    intro j _ beyond
    rw [contents_swaps entry fits, foldl_swap_beyond σ _ _ beyond, id_eq]
  rw [Realises, and_iff_left elsewhere, eq_range_iff entry]
  cases convention with
  | sends =>
      rw [← swapChain_eq_inv_iff nodup List.mem_finRange, eq_inv_iff_mul_eq_one, Equiv.ext_iff,
        Fin.forall_iff]
      refine forall₂_congr fun i within => ?_
      rw [Equiv.Perm.mul_apply, Equiv.Perm.one_apply, Fin.ext_iff, ← inChain, entry]
  | fetches =>
      rw [← swapChain_eq_self_iff nodup List.mem_finRange, Equiv.ext_iff, Fin.forall_iff]
      refine forall₂_congr fun i within => ?_
      rw [Fin.ext_iff, entry, ← inChain]

end Swaps

/-- Under neither convention are any axes realised but those that leave every wire in place. -/
theorem permute_realises_iff (convention : Convention) {p : PirtnProgram} {c : Circuit}
    (lowered : p.lowerToCircuit = .ok c) {k input out : Nat} {axes : List Nat}
    (found : p.ops[k]? = some (.permute input out axes)) (fits : axes.length ≤ p.width)
    (permutation : axes.Perm (List.range axes.length)) :
    Realises convention p.width (p.emittedAt k) axes ↔ axes = List.range axes.length := by
  obtain ⟨-, guarded, -⟩ := PirtnProgram.lowerToCircuit_ok_iff.mp lowered
  obtain ⟨σ, entry⟩ := exists_perm permutation
  have inside : ∀ g ∈ swaps p.width axes, g.InRegister p.width :=
    swaps_inRegister_iff.mpr fun _ within beyond => absurd (within.trans_le fits) beyond.not_gt
  have kept : (swaps p.width axes).filter (·.InRegister p.width) = swaps p.width axes :=
    List.filter_eq_self.mpr fun g member => decide_eq_true (inside g member)
  rw [PirtnProgram.emittedAt_eq guarded found, emits, kept]
  exact realises_swaps_iff entry fits convention

def exchange : PirtnProgram := ⟨[.permute 0 1 [1, 0, 2]], 3⟩

theorem permute_realises_identity :
    Realises .sends 3 (PirtnProgram.emittedAt ⟨[.permute 0 1 [0, 1, 2]], 3⟩ 0) [0, 1, 2] :=
  (permute_realises_iff .sends (p := ⟨[.permute 0 1 [0, 1, 2]], 3⟩) rfl (k := 0) rfl (by decide)
    (by decide)).mpr (by decide)

theorem not_realises_exchange :
    exchange.emittedAt 0 = [.double .swap ⟨0⟩ ⟨1⟩, .double .swap ⟨1⟩ ⟨0⟩] ∧
      ¬ Realises .sends 3 (exchange.emittedAt 0) [1, 0, 2] ∧
      ¬ Realises .fetches 3 (exchange.emittedAt 0) [1, 0, 2] := by
  refine ⟨by decide, fun realised => ?_, fun realised => ?_⟩
  · exact absurd (realised.1 0 (by decide)) (by decide)
  · exact absurd (realised.1 0 (by decide)) (by decide)

/-! ## What the axes do instead -/

def axisTarget (axes : List Nat) (i : Nat) : Nat := axes.getD i i

def axisSource (axes : List Nat) (i : Nat) : Nat := if i < axes.length then axes.idxOf i else i

section Axes
variable {axes : List Nat} (permutation : axes.Perm (List.range axes.length))
include permutation

theorem axisSource_axisTarget (i : Nat) : axisSource axes (axisTarget axes i) = i := by
  by_cases within : i < axes.length
  · have inside : axes[i] < axes.length := (mem_axes_iff permutation).mp (List.getElem_mem within)
    rw [axisTarget, List.getD_eq_getElem _ _ within, axisSource, if_pos inside,
      (axes_nodup permutation).idxOf_getElem]
  · rw [axisTarget, List.getD_eq_default _ _ (not_lt.mp within), axisSource, if_neg within]

theorem axisTarget_axisSource (i : Nat) : axisTarget axes (axisSource axes i) = i := by
  by_cases within : i < axes.length
  · have position : axes.idxOf i < axes.length :=
      List.idxOf_lt_length_iff.mpr ((mem_axes_iff permutation).mpr within)
    rw [axisSource, if_pos within, axisTarget, List.getD_eq_getElem _ _ position,
      List.getElem_idxOf]
  · rw [axisSource, if_neg within, axisTarget, List.getD_eq_default _ _ (not_lt.mp within)]

/-- Each content is carried along a descending run of its cycle. -/
theorem contents_swaps_alongRun {α : Type} {n : Nat} (fits : axes.length ≤ n) (w : Nat → α) :
    contents (swaps n axes) w = w ∘ alongRun (axisTarget axes) (axisSource axes) := by
  let σ : Equiv.Perm Nat := ⟨axisTarget axes, axisSource axes, axisSource_axisTarget permutation,
    axisTarget_axisSource permutation⟩
  have entries : axes.zipIdx = (List.range axes.length).map fun i => (σ i, i) := by
    apply List.ext_getElem
    · simp
    · intro i within _
      have inside : i < axes.length := by simpa using within
      simp [σ, axisTarget, inside]
  have inside : ∀ e ∈ axes.zipIdx, e.1 < n := by
    intro e member
    exact ((mem_axes_iff permutation).mp (List.fst_mem_of_mem_zipIdx member)).trans_le fits
  rw [swaps, contents_filterMap inside, entries, List.foldl_map, foldl_swap]
  have fixed (q : Nat) (beyond : axes.length ≤ q) : σ q = q := List.getD_eq_default _ _ beyond
  exact congrArg (w ∘ ·) (funext (swapChain_range_apply σ fixed))

end Axes
end SovereignPirtm.Lowering
