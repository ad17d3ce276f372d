import SmoothlyPool.Construction.Execution
import SmoothlyPool.Construction.Prover
import SmoothlyPool.Construction.SSZ
import SmoothlyPool.Library.ByteOrder
import SmoothlyPool.Proof.Merkle.Branch

namespace SmoothlyPool

open Bytes32 Checked GIndex Merkle

namespace SSZ

/-- The xor clears the leading bit, and the shift makes room for the other bits. -/
theorem shift_or_xor {a b : ℕ} (positive : 1 ≤ b) :
    a <<< b.log2 ||| (b ^^^ 1 <<< b.log2) = compose a b := by
  have pivot : b ^^^ 2 ^ b.log2 = b - 2 ^ b.log2 := by
    rw [ByteOrder.flip_eq, if_pos (Nat.testBit_log2 (by omega))]
  rw [Nat.one_shiftLeft, pivot, Nat.shiftLeft_eq, Nat.mul_comm, ← Nat.two_pow_add_eq_or_of_lt (tail_lt b),
    compose, Nat.mul_comm]

/-- The composition fits into 64 bits, so no cast drops a bit. -/
theorem concatGindices_ok {a b : Uint64} (above : 1 ≤ a.toNat) (below : 1 ≤ b.toNat)
    (depth : a.toNat.log2 + b.toNat.log2 ≤ 63) :
    ∃ g : Uint64, concatGindices a b = .ok g ∧ g.toNat = compose a.toNat b.toNat := by
  have fits : compose a.toNat b.toNat < 2 ^ 64 := by
    have grows : compose a.toNat b.toNat < 2 ^ ((compose a.toNat b.toNat).log2 + 1) := Nat.lt_log2_self
    rw [log2_compose above] at grows
    exact grows.trans_le (Nat.pow_le_pow_right (by decide) (by omega))
  have wide : b.toNat < 2 ^ 256 := BitVec.toNat_lt_twoPow_of_le (by decide)
  have step : (BitVec.ofNat 64 b.toNat.log2).toNat = b.toNat.log2 := by
    rw [BitVec.toNat_ofNat, Nat.mod_eq_of_lt (by omega)]
  have upper : a.toNat <<< b.toNat.log2 < 2 ^ 64 := by
    rw [Nat.shiftLeft_eq]
    exact (Nat.le_add_right _ _).trans_lt fits
  have pivot : 1 <<< b.toNat.log2 < 2 ^ 256 := by
    rw [Nat.one_shiftLeft]
    exact Nat.pow_lt_pow_right (by decide) (by omega)
  refine ⟨_, bind_of_ok (log2_ok below wide) rfl, ?_⟩
  rw [BitVec.toNat_setWidth, BitVec.toNat_or, BitVec.toNat_xor, BitVec.toNat_setWidth_of_le (by decide),
    BitVec.toNat_setWidth_of_le (by decide), BitVec.shiftLeft_eq', BitVec.shiftLeft_eq', step,
    BitVec.toNat_shiftLeft, BitVec.toNat_shiftLeft, Nat.mod_eq_of_lt upper, BitVec.toNat_ofNat,
    Nat.mod_eq_of_lt (by decide : 1 < 2 ^ 256), Nat.mod_eq_of_lt pivot, shift_or_xor below, Nat.mod_eq_of_lt fits]

/-- The lower proof takes the leaf to the node `b`, and the upper proof takes this node to the root. -/
theorem calculateMerkleRoot_concatGindices {B : Type} [Bytes32 B] {a b : Uint64} (above : 1 ≤ a.toNat)
    (below : 1 ≤ b.toNat) (depth : a.toNat.log2 + b.toNat.log2 ≤ 63) (leaf : B) {pa pb : List B}
    (upper : pa.length = a.toNat.log2) (lower : pb.length = b.toNat.log2) :
    ∃ g node root, concatGindices a b = .ok g ∧ calculateMerkleRoot pb leaf b.toNat = .ok node ∧
      calculateMerkleRoot pa node a.toNat = .ok root ∧ calculateMerkleRoot (pb ++ pa) leaf g.toNat = .ok root := by
  obtain ⟨g, concat, composed⟩ := concatGindices_ok above below depth
  have wide (x : Uint64) : x.toNat < 2 ^ 256 := BitVec.toNat_lt_twoPow_of_le (by decide)
  have depths : g.toNat.log2 = a.toNat.log2 + b.toNat.log2 := by rw [composed, log2_compose above]
  have positive : 0 < g.toNat := by
    rw [composed]
    exact above.trans le_compose
  have first : merkleLoop g.toNat 0 pb leaf = merkleLoop b.toNat 0 pb leaf := by
    apply merkleLoop_congr
    intro j inside
    rw [Nat.zero_add, composed, compose_bit below (by omega)]
  have second (node : B) : merkleLoop g.toNat pb.length pa node = merkleLoop a.toNat 0 pa node := by
    have shifted := merkleLoop_div g.toNat b.toNat.log2 0 pa node
    rwa [composed, compose_div, ← composed, Nat.add_zero, ← lower, eq_comm] at shifted
  refine ⟨g, merkleLoop b.toNat 0 pb leaf, merkleLoop a.toNat 0 pa (merkleLoop b.toNat 0 pb leaf), concat,
    ?_, ?_, ?_⟩
  · rw [calculateMerkleRoot_eq pb leaf below (wide b), if_pos lower]
  · rw [calculateMerkleRoot_eq pa _ above (wide a), if_pos upper]
  · rw [calculateMerkleRoot_eq _ leaf positive (wide g), if_pos (by rw [List.length_append, depths]; omega),
      merkleLoop_append, Nat.zero_add, first, second]

/-- The node 3 below the node 2 is the node 5. -/
theorem calculateMerkleRoot_concatGindices_two :
    ∃ g node root, concatGindices 2 3 = .ok g ∧ calculateMerkleRoot [Term.word 1] (Term.word 0) 3 = .ok node ∧
      calculateMerkleRoot [Term.word 2] node 2 = .ok root ∧
      calculateMerkleRoot ([Term.word 1] ++ [Term.word 2]) (Term.word 0) g.toNat = .ok root :=
  calculateMerkleRoot_concatGindices (by decide) (by decide) (by decide) (Term.word 0) rfl rfl

end SSZ

namespace Prover

/-- One round of the smear on a `u64` value. -/
theorem smear {high depth : ℕ} {x : Uint64} (smeared : Smeared high depth x.toNat) :
    Smeared high (depth + depth) (x ||| (x >>> depth)).toNat := by
  rw [BitVec.toNat_or, BitVec.toNat_ushiftRight]
  exact smeared.double

/-- Below the highest bit the increment does not overflow, and it leaves the highest bit doubled. -/
theorem floorPowerOfTwo_ok {x : Uint64} (positive : 0 < x.toNat) (bound : x.toNat < 2 ^ 63) :
    ∃ power, floorPowerOfTwo x = .ok power ∧ power.toNat = 2 ^ x.toNat.log2 := by
  have some : x ≠ 0 := by
    rintro rfl
    exact absurd positive (by decide)
  have few : x.toNat.log2 < 63 := (Nat.log2_lt positive.ne').mpr bound
  unfold floorPowerOfTwo
  rw [if_neg some]
  extract_lets x₁ x₂ x₃ x₄ x₅ x₆
  have smeared : x₆.toNat = 2 ^ (x.toNat.log2 + 1) - 1 :=
    (smear (smear (smear (smear (smear (smear (smeared_log2 positive.ne'))))))).eq (by omega)
  have room := Nat.two_pow_pos (x.toNat.log2 + 1)
  have small : 2 ^ (x.toNat.log2 + 1) ≤ 2 ^ 63 := Nat.pow_le_pow_right (by decide) few
  have next : x₆.toNat + (1 : Uint64).toNat = 2 ^ (x.toNat.log2 + 1) := by
    rw [smeared]
    exact Nat.sub_add_cancel room
  have fits : x₆.toNat + (1 : Uint64).toNat < 2 ^ 64 := by omega
  have added : add x₆ 1 = .ok (x₆ + 1) := bind_of_ok (require_ok fits) rfl
  refine ⟨_, bind_of_ok added rfl, ?_⟩
  rw [BitVec.toNat_ushiftRight, BitVec.toNat_add, next, Nat.mod_eq_of_lt (by omega), Nat.shiftRight_one, pow_succ,
    Nat.mul_div_cancel _ (by decide)]

/-- One round of the prover computes the composition. -/
theorem concatLoop_cons {i o : Uint64} {rest : List Uint64} (positive : 0 < i.toNat) (bound : i.toNat < 2 ^ 63)
    (fits : compose o.toNat i.toNat < 2 ^ 64) :
    ∃ next : Uint64, concatLoop (i :: rest) o = concatLoop rest next ∧ next.toNat = compose o.toNat i.toNat := by
  obtain ⟨power, floor, value⟩ := floorPowerOfTwo_ok positive bound
  have low : power.toNat ≤ i.toNat := by
    rw [value]
    exact Nat.log2_self_le positive.ne'
  have sum : o.toNat * power.toNat + (i.toNat - power.toNat) = compose o.toNat i.toNat := by rw [value, compose]
  have product : mul o power = .ok (o * power) := bind_of_ok (require_ok (by omega)) rfl
  have tail : sub i power = .ok (i - power) := bind_of_ok (require_ok low) rfl
  have productValue : (o * power).toNat = o.toNat * power.toNat := by
    rw [BitVec.toNat_mul, Nat.mod_eq_of_lt (by omega)]
  have tailValue : (i - power).toNat = i.toNat - power.toNat := BitVec.toNat_sub_of_le (BitVec.le_def.mpr low)
  have added : add (o * power) (i - power) = .ok (o * power + (i - power)) :=
    bind_of_ok (require_ok (by rw [productValue, tailValue, sum]; exact fits)) rfl
  refine ⟨o * power + (i - power), ?_, ?_⟩
  · rw [concatLoop, floor, ok_bind, product, ok_bind, ok_bind, tail, ok_bind, added, ok_bind]
  · rw [BitVec.toNat_add, productValue, tailValue, sum, Nat.mod_eq_of_lt fits]

/-- Both folds stay equal, and the depth of the result is the sum of the depths. -/
theorem concatLoop_agrees (indices : List Uint64) (o : Uint64)
    (valid : ∀ i ∈ indices, 0 < i.toNat ∧ i.toNat < 2 ^ 63) (positive : 1 ≤ o.toNat)
    (depth : o.toNat.log2 + (indices.map fun i => i.toNat.log2).sum ≤ 63) :
    ∃ g, concatLoop indices o = .ok g ∧ indices.foldlM SSZ.concatGindices o = .ok g ∧
      g.toNat = indices.foldl (fun node i => compose node i.toNat) o.toNat := by
  induction indices generalizing o with
  | nil => exact ⟨o, rfl, rfl, rfl⟩
  | cons i rest ih =>
      obtain ⟨some, bound⟩ := valid i List.mem_cons_self
      rw [List.map_cons, List.sum_cons] at depth
      obtain ⟨g, concat, composed⟩ := SSZ.concatGindices_ok positive some (by omega)
      have fits : compose o.toNat i.toNat < 2 ^ 64 := by
        rw [← composed]
        exact g.isLt
      obtain ⟨next, round, same⟩ := @concatLoop_cons i o rest some bound fits
      obtain rfl : next = g := BitVec.eq_of_toNat_eq (same.trans composed.symm)
      have depths : next.toNat.log2 = o.toNat.log2 + i.toNat.log2 := by rw [same, log2_compose positive]
      have low : 1 ≤ next.toNat := by
        rw [same]
        exact positive.trans le_compose
      obtain ⟨result, prover, contract, value⟩ :=
        ih next (fun j later => valid j (List.mem_cons_of_mem i later)) low (by omega)
      refine ⟨result, round.trans prover, ?_, ?_⟩
      · rw [List.foldlM_cons, concat, ok_bind]
        exact contract
      · rw [value, List.foldl_cons, same]

/-- The prover and the contract compute the same index without an overflow.
For a validator it is the index that `register` and `updateValidator` verify. -/
theorem concatGeneralizedIndices_agrees :
    (∀ indices : List Uint64, (∀ i ∈ indices, i.toNat ≠ 0 ∧ i.toNat < 2 ^ 63) →
      (indices.map fun i => i.toNat.log2).sum ≤ 63 →
      ∃ g, concatGeneralizedIndices indices = .ok g ∧ indices.foldlM SSZ.concatGindices 1 = .ok g) ∧
    ∀ i < 2 ^ 40, ∃ g, concatGeneralizedIndices [11, 43, BitVec.ofNat 64 (2 ^ 41 + i)] = .ok g ∧
      g.toNat = Pool.ZERO_VALIDATOR_INDEX + i ∧ Pool.validatorGIndex (BitVec.ofNat 64 i) = .ok g.toNat := by
  constructor
  · intro indices valid depth
    obtain ⟨g, prover, contract, _⟩ := concatLoop_agrees indices 1
      (fun i listed => ⟨Nat.pos_of_ne_zero (valid i listed).1, (valid i listed).2⟩) le_rfl
      (by rw [show (1 : Uint64).toNat.log2 = 0 from rfl, Nat.zero_add]; exact depth)
    exact ⟨g, prover, contract⟩
  · intro i small
    have place : (BitVec.ofNat 64 (2 ^ 41 + i)).toNat = 2 ^ 41 + i := by
      rw [BitVec.toNat_ofNat, Nat.mod_eq_of_lt (by omega)]
    have level : (2 ^ 41 + i).log2 = 41 := (Nat.log2_eq_iff (by omega)).mpr ⟨by omega, by omega⟩
    have valid : ∀ j ∈ [11, 43, BitVec.ofNat 64 (2 ^ 41 + i)], 0 < j.toNat ∧ j.toNat < 2 ^ 63 := by
      intro j listed
      simp only [List.mem_cons, List.not_mem_nil, or_false] at listed
      rcases listed with rfl | rfl | rfl
      · decide
      · decide
      · rw [place]
        omega
    have sum : (1 : Uint64).toNat.log2 +
        ([11, 43, BitVec.ofNat 64 (2 ^ 41 + i)].map fun j => j.toNat.log2).sum ≤ 63 := by
      simp only [List.map_cons, List.map_nil, place, level]
      decide
    obtain ⟨g, prover, _, value⟩ := concatLoop_agrees _ 1 valid le_rfl sum
    have index : g.toNat = Pool.ZERO_VALIDATOR_INDEX + i := by
      rw [value]
      simp only [List.foldl_cons, List.foldl_nil, place]
      have state : compose (compose (1 : Uint64).toNat (11 : Uint64).toNat) (43 : Uint64).toNat = 363 := by decide
      rw [state, compose, level, Pool.ZERO_VALIDATOR_INDEX]
      omega
    have validator : (BitVec.ofNat 64 i).toNat = i := by
      rw [BitVec.toNat_ofNat, Nat.mod_eq_of_lt (by omega)]
    refine ⟨g, prover, index, ?_⟩
    rw [Pool.validatorGIndex, validator, ← index]
    exact bind_of_ok (require_ok g.isLt) rfl

/-- The validator 5 lies five places behind the first one. -/
theorem concatGeneralizedIndices_agrees_five :
    (∃ g, concatGeneralizedIndices [11, 43] = .ok g ∧ ([11, 43] : List Uint64).foldlM SSZ.concatGindices 1 = .ok g) ∧
    ∃ g, concatGeneralizedIndices [11, 43, BitVec.ofNat 64 (2 ^ 41 + 5)] = .ok g ∧
      g.toNat = Pool.ZERO_VALIDATOR_INDEX + 5 ∧ Pool.validatorGIndex (BitVec.ofNat 64 5) = .ok g.toNat := by
  obtain ⟨lists, validators⟩ := concatGeneralizedIndices_agrees
  constructor
  · exact lists [11, 43] (by simp) (by decide +kernel)
  · exact validators 5 (by decide)

end Prover

end SmoothlyPool
