import SovereignPirtm.Library.Involutions
import SovereignPirtm.Lowering.Stabilizers

/-!
# Programs of matrix products

A `MatMul` joins its two factors symmetrically and forgets its third operand. A program of nothing
else is a graph: what it does is determined by which pairs of wires it joins an odd number of times,
and determines them.
-/

namespace SovereignPirtm.Lowering
open Library Operator TensorOp
open scoped symmDiff

/-! ## Joining two wires -/

noncomputable def entangle (a b : Nat) : Operator (Nat → Bool) :=
  Operator.hadamard a * Operator.cnot a b * Operator.hadamard a

section Pair
variable {a b : Nat} (apart : a ≠ b)
include apart

theorem entangle_eq : entangle a b = (2⁻¹ : ℂ) • (1 + Operator.pauliX a + Operator.pauliX b +
    (-1 : ℂ) • (Operator.pauliX a * Operator.pauliX b)) := by
  apply ext_basis
  intro w
  rw [entangle, Module.End.mul_apply, Module.End.mul_apply, hadamard_cnot_control apart,
    LinearMap.smul_apply, LinearMap.add_apply, LinearMap.add_apply, LinearMap.add_apply,
    LinearMap.smul_apply, Module.End.mul_apply, pauliX_basis, pauliX_basis, pauliX_basis,
    Module.End.one_apply]
  module

theorem entangle_symm : entangle a b = entangle b a := by
  rw [entangle_eq apart, entangle_eq apart.symm, (pauliX_commute a b).eq,
    add_right_comm 1 (Operator.pauliX a)]

theorem entangle_mul_self : entangle a b * entangle a b = 1 := by
  calc entangle a b * entangle a b
      = Operator.hadamard a * Operator.cnot a b * (Operator.hadamard a * Operator.hadamard a) *
          (Operator.cnot a b * Operator.hadamard a) := by simp only [entangle, mul_assoc]
    _ = Operator.hadamard a * (Operator.cnot a b * Operator.cnot a b) * Operator.hadamard a := by
        rw [hadamard_mul_self, mul_one]
        simp only [mul_assoc]
    _ = 1 := by rw [cnot_mul_self apart, mul_one, hadamard_mul_self]

theorem commute_entangle {U : Operator (Nat → Bool)} (left : Commute U (Operator.pauliX a))
    (right : Commute U (Operator.pauliX b)) : Commute U (entangle a b) := by
  rw [entangle_eq apart]
  have both : Commute U ((-1 : ℂ) • (Operator.pauliX a * Operator.pauliX b)) :=
    (left.mul_right right).smul_right _
  exact ((((Commute.one_right U).add_right left).add_right right).add_right both).smul_right _

theorem entangle_commute {c d : Nat} (apart' : c ≠ d) : Commute (entangle a b) (entangle c d) :=
  commute_entangle apart'
    (commute_entangle apart (pauliX_commute c a) (pauliX_commute c b)).symm
    (commute_entangle apart (pauliX_commute d a) (pauliX_commute d b)).symm

end Pair

/-! ## Edges -/

namespace TensorOp

def IsProduct : TensorOp → Prop
  | .matMul a b _ => a ≠ b
  | _ => False

instance : DecidablePred IsProduct
  | .matMul _ _ _ => inferInstanceAs (Decidable (_ ≠ _))
  | .contract _ _ _ _ => isFalse id
  | .add _ _ _ => isFalse id
  | .permute _ _ _ => isFalse id
  | .scalarMul _ _ _ => isFalse id
  | .reshape _ _ => isFalse id

/-- The third operand is left out. -/
def edge : TensorOp → Option (Sym2 Nat)
  | .matMul a b _ => some s(a, b)
  | _ => none

theorem IsProduct.unaliased {op : TensorOp} (product : op.IsProduct) : op.Unaliased := by
  cases op with
  | matMul a b c => exact product
  | _ => exact product.elim

end TensorOp

def PirtnProgram.joined (p : PirtnProgram) (e : Sym2 Nat) : Nat := (p.ops.filterMap edge).count e

noncomputable def join : Sym2 Nat → Operator (Nat → Bool) :=
  Sym2.lift ⟨entangle, fun a b => by
    by_cases same : a = b
    · rw [same]
    · exact entangle_symm same⟩

theorem join_commute (e e' : Sym2 Nat) (proper : ¬ e.IsDiag) (proper' : ¬ e'.IsDiag) :
    Commute (join e) (join e') := by
  induction e with | _ a b =>
  induction e' with | _ c d =>
  exact entangle_commute proper proper'

theorem join_mul_self (e : Sym2 Nat) (proper : ¬ e.IsDiag) : join e * join e = 1 := by
  induction e with | _ a b =>
  exact entangle_mul_self proper

section Products
variable (rotation : Nat → UInt64 → Operator (Nat → Bool)) {n : Nat} {ops : List TensorOp}
  (products : ∀ op ∈ ops, op.IsProduct)
include products

theorem edges_proper : ∀ e ∈ ops.filterMap edge, ¬ e.IsDiag := by
  intro e member
  obtain ⟨op, inside, found⟩ := List.mem_filterMap.mp member
  have product := products op inside
  cases op with
  | matMul a b c =>
      obtain rfl := Option.some.inj found
      exact product
  | _ => exact product.elim

theorem meaning_products (guarded : ∀ op ∈ ops, op.Guarded n) :
    meaning rotation ((ops.flatMap (emits n)).filter (·.InRegister n)) =
      ((ops.filterMap edge).reverse.map join).prod := by
  induction ops with
  | nil => rfl
  | cons op ops ih =>
      rw [List.forall_mem_cons] at products guarded
      rw [List.flatMap_cons, List.filter_append, meaning_append, ih products.2 guarded.2]
      cases op with
      | matMul a b c =>
          have kept := List.filter_eq_self.mpr fun g member =>
            decide_eq_true ((emits_inRegister_iff guarded.1).mpr trivial g member)
          rw [kept, List.filterMap_cons, edge, List.reverse_cons, List.map_append, List.prod_append,
            List.map_singleton, List.prod_singleton]
          simp only [emits, meaning, one_mul]
          rfl
      | _ => exact products.1.elim

end Products

/-! ## Neighbours -/

/-- A `Z` on one of two joined wires picks up an `X` on the other. -/
def touch (q : Nat) (x : Finset Nat) : TensorOp → Finset Nat
  | .matMul a b _ => if q = a then x ∆ {b} else if q = b then x ∆ {a} else x
  | _ => x

def neighbours (q : Nat) (ops : List TensorOp) : Finset Nat :=
  ops.foldr (fun op x => touch q x op) ∅

theorem mem_neighbours {q r : Nat} {ops : List TensorOp} (products : ∀ op ∈ ops, op.IsProduct) :
    r ∈ neighbours q ops ↔ (ops.filterMap edge).count s(q, r) % 2 = 1 := by
  have odd_succ (k : Nat) : (k + 1) % 2 = 1 ↔ k % 2 = 0 := by omega
  induction ops with
  | nil => simp [neighbours]
  | cons op ops ih =>
      rw [List.forall_mem_cons] at products
      cases op with
      | matMul a b c =>
          rw [List.filterMap_cons, edge, neighbours, List.foldr_cons, ← neighbours, touch]
          by_cases left : q = a
          · subst left
            by_cases here : r = b
            · subst here
              simp [Finset.mem_symmDiff, ih products.2, odd_succ]
            · have other : s(q, b) ≠ s(q, r) := fun same => here (Sym2.congr_right.mp same).symm
              simp [Finset.mem_symmDiff, ih products.2, here, List.count_cons_of_ne other]
          · by_cases right : q = b
            · subst right
              by_cases here : r = a
              · subst here
                rw [Sym2.eq_swap (a := r)]
                simp [Finset.mem_symmDiff, ih products.2, left, odd_succ]
              · have other : s(a, q) ≠ s(q, r) := by
                  rw [Sym2.eq_swap]
                  exact fun same => here (Sym2.congr_right.mp same).symm
                simp [Finset.mem_symmDiff, ih products.2, left, here, List.count_cons_of_ne other]
            · have other : s(a, b) ≠ s(q, r) := by
                rw [ne_eq, Sym2.eq_iff]
                rintro (⟨rfl, -⟩ | ⟨-, rfl⟩)
                · exact left rfl
                · exact right rfl
              simp [ih products.2, left, right, List.count_cons_of_ne other]
      | _ => exact products.1.elim

theorem string_basis (q : Nat) (x : Finset Nat) (w : Nat → Bool) :
    (⟨false, x, {q}⟩ : Pauli Nat).operator (basis w) = signOf (w q) • basis (flipAll x w) := by
  rw [Pauli.operator_basis, parity_singleton, Bool.false_xor]

theorem passes_touch {q a b : Nat} (apart : a ≠ b) (x : Finset Nat) (c : Nat) :
    (⟨false, x, {q}⟩ : Pauli Nat).operator * entangle a b =
      entangle a b * (⟨false, touch q x (.matMul a b c), {q}⟩ : Pauli Nat).operator := by
  apply ext_basis
  intro w
  rw [Module.End.mul_apply, Module.End.mul_apply, string_basis, map_smul, entangle,
    Module.End.mul_apply, Module.End.mul_apply, Module.End.mul_apply, Module.End.mul_apply,
    hadamard_cnot_control apart, hadamard_cnot_control apart, map_smul, map_sub, map_add, map_add,
    string_basis, string_basis, string_basis, string_basis, flipAll_flipBit, flipAll_flipBit,
    flipAll_flipBit, flipAll_flipBit, touch]
  by_cases left : q = a
  · subst left
    simp only [if_true, flipAll_symmDiff, flipAll_singleton, flipAll_flipBit, flipBit_flipBit,
      flipBit_self, flipBit_of_ne apart, signOf_not]
    module
  · by_cases right : q = b
    · subst right
      simp only [left, if_true, if_false, flipAll_symmDiff, flipAll_singleton, flipAll_flipBit,
        flipBit_comm q a, flipBit_flipBit, flipBit_self, flipBit_of_ne left, signOf_not]
      module
    · simp only [left, right, if_false, flipBit_of_ne left, flipBit_of_ne right]
      module

section Products
variable (rotation : Nat → UInt64 → Operator (Nat → Bool)) {ops : List TensorOp}
  (products : ∀ op ∈ ops, op.IsProduct)
include products

theorem passes_products (q : Nat) : (⟨false, ∅, {q}⟩ : Pauli Nat).operator *
      ((ops.filterMap edge).reverse.map join).prod =
    ((ops.filterMap edge).reverse.map join).prod *
      (⟨false, neighbours q ops, {q}⟩ : Pauli Nat).operator := by
  induction ops with
  | nil =>
      rw [List.filterMap_nil, List.reverse_nil, List.map_nil, List.prod_nil, mul_one, one_mul]
      rfl
  | cons op ops ih =>
      rw [List.forall_mem_cons] at products
      cases op with
      | matMul a b c =>
          rw [List.filterMap_cons, edge, List.reverse_cons, List.map_append, List.prod_append,
            List.map_singleton, List.prod_singleton, ← mul_assoc, ih products.2, mul_assoc, mul_assoc]
          exact congrArg _ (passes_touch products.1 (neighbours q ops) c)
      | _ => exact products.1.elim

end Products

theorem neighbours_of_operators {q : Nat} {x y : Finset Nat}
    (same : (⟨false, x, {q}⟩ : Pauli Nat).operator = (⟨false, y, {q}⟩ : Pauli Nat).operator) :
    x = y := by
  have applied := LinearMap.congr_fun same (basis fun _ => false)
  rw [string_basis, string_basis, signOf_false, one_smul, one_smul] at applied
  have flipped := basis_injective applied
  ext r
  have bit := congrFun flipped r
  simpa [flipAll] using bit

theorem matMul_meaning_eq_iff {p q : PirtnProgram} {c d : Circuit}
    (lowered : p.lowerToCircuit = .ok c) (lowered' : q.lowerToCircuit = .ok d)
    (products : ∀ op ∈ p.ops, op.IsProduct) (products' : ∀ op ∈ q.ops, op.IsProduct)
    (rotation : Nat → UInt64 → Operator (Nat → Bool)) :
    meaning rotation c.gates = meaning rotation d.gates ↔
      ∀ e, p.joined e % 2 = q.joined e % 2 := by
  have unitary := (lowered_unitary_iff lowered rotation).mpr fun op member =>
    (products op member).unaliased
  obtain ⟨-, guarded, rfl⟩ := PirtnProgram.lowerToCircuit_ok_iff.mp lowered
  obtain ⟨-, guarded', rfl⟩ := PirtnProgram.lowerToCircuit_ok_iff.mp lowered'
  have first : meaning rotation (Emission.of p.width (p.ops.flatMap (emits p.width))).circuit.gates =
      _ := meaning_products rotation products guarded
  have second : meaning rotation (Emission.of q.width (q.ops.flatMap (emits q.width))).circuit.gates =
      _ := meaning_products rotation products' guarded'
  constructor
  · intro same e
    induction e with | _ a b =>
    rw [first] at unitary
    have passed := passes_products products a
    have passed' := passes_products products' a
    rw [← second, ← same, first, passed] at passed'
    have operators : (⟨false, neighbours a p.ops, {a}⟩ : Pauli Nat).operator =
        (⟨false, neighbours a q.ops, {a}⟩ : Pauli Nat).operator :=
      LinearMap.ext fun φ => unitary.injective (LinearMap.congr_fun passed' φ)
    have odd : (p.joined s(a, b) % 2 = 1) ↔ (q.joined s(a, b) % 2 = 1) := by
      rw [PirtnProgram.joined, PirtnProgram.joined, ← mem_neighbours products,
        ← mem_neighbours products', neighbours_of_operators operators]
    omega
  · intro parities
    rw [first, second]
    refine prod_eq_of_parity join_commute join_mul_self ?_ ?_ fun e => ?_
    · exact fun e member => edges_proper products e (List.mem_reverse.mp member)
    · exact fun e member => edges_proper products' e (List.mem_reverse.mp member)
    · rw [List.count_reverse, List.count_reverse]
      exact parities e

/-- The order of the products, of their factors, and a pair of equal products are all invisible. -/
theorem matMul_meaning_eq_shuffled : ∃ c d,
    PirtnProgram.lowerToCircuit ⟨[.matMul 0 1 2, .matMul 1 2 0], 3⟩ = .ok c ∧
      PirtnProgram.lowerToCircuit
        ⟨[.matMul 0 2 1, .matMul 2 1 1, .matMul 2 0 0, .matMul 1 0 0], 3⟩ = .ok d ∧
      ∀ rotation, meaning rotation c.gates = meaning rotation d.gates := by
  refine ⟨_, _, rfl, rfl, fun rotation => (matMul_meaning_eq_iff
    (p := ⟨[.matMul 0 1 2, .matMul 1 2 0], 3⟩)
    (q := ⟨[.matMul 0 2 1, .matMul 2 1 1, .matMul 2 0 0, .matMul 1 0 0], 3⟩) rfl rfl (by decide)
    (by decide) rotation).mpr fun e => ?_⟩
  simp only [PirtnProgram.joined, List.filterMap_cons, edge, List.filterMap_nil, List.count_cons,
    List.count_nil, Sym2.eq_swap (a := 2), Sym2.eq_swap (a := 1) (b := 0)]
  omega

end SovereignPirtm.Lowering
