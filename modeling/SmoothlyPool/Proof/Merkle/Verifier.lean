import SmoothlyPool.Construction.SSZ
import SmoothlyPool.Proof.Merkle.Branch

namespace SmoothlyPool.SSZ

open Bytes32 Checked Merkle GIndex

variable {B : Type} [Bytes32 B]

/-- One round fails when the index runs out, and otherwise it hashes the pair in the order of the last bit. -/
theorem verifyLoop_cons (item : B) (rest : List B) (index : Word) (leaf : B) (memory : Word → B) :
    ∃ scratch, verifyLoop (item :: rest) index leaf memory =
      if index.toNat / 2 = 0 then .error .branchHasExtraItem
      else verifyLoop rest (index >>> 1)
        (if index.toNat % 2 = 1 then sha256 item leaf else sha256 leaf item) scratch := by
  have out : index >>> 1 = 0 ↔ index.toNat / 2 = 0 := by
    rw [BitVec.toNat_eq, BitVec.toNat_ushiftRight, Nat.shiftRight_eq_div_pow]
    rfl
  have last : (index &&& 1).toNat = index.toNat % 2 := by
    rw [BitVec.toNat_and]
    exact Nat.and_one_is_mod _
  have lift (bit : Word) (same : index &&& 1 = bit) : verifyLoop (item :: rest) index leaf memory =
      if index.toNat / 2 = 0 then .error .branchHasExtraItem
      else
        let slots := Function.update (Function.update memory (bit <<< 5) leaf) (bit <<< 5 ^^^ 0x20) item
        verifyLoop rest (index >>> 1) (sha256 (slots 0) (slots 0x20))
          (Function.update slots 0 (sha256 (slots 0) (slots 0x20))) := by
    rw [verifyLoop, same]
    simp only [require, ne_eq, out, ite_not, Function.update_self]
    split_ifs <;> rfl
  by_cases odd : index.toNat % 2 = 1
  · have bit : index &&& 1 = 1 := BitVec.eq_of_toNat_eq (last.trans odd)
    rw [lift 1 bit, if_pos odd]
    exact ⟨_, rfl⟩
  · have bit : index &&& 1 = 0 := BitVec.eq_of_toNat_eq (last.trans (Nat.mod_two_ne_one.mp odd))
    rw [lift 0 bit, if_neg odd]
    exact ⟨_, rfl⟩

/-- The loop ends with the shifted index and the hash of the branch, unless the index runs out. -/
theorem verifyLoop_eq (proof : List B) (index : Word) (leaf : B) (memory : Word → B) :
    verifyLoop proof index leaf memory =
      if proof = [] ∨ index.toNat / 2 ^ proof.length ≠ 0 then
        .ok (index >>> proof.length, merkleLoop index.toNat 0 proof leaf)
      else .error .branchHasExtraItem := by
  induction proof generalizing index leaf memory with
  | nil => simp [verifyLoop, merkleLoop]
  | cons item rest ih =>
      obtain ⟨scratch, round⟩ := verifyLoop_cons item rest index leaf memory
      have half : (index >>> 1).toNat = index.toNat / 2 := by
        rw [BitVec.toNat_ushiftRight, Nat.shiftRight_eq_div_pow, pow_one]
      have down : index.toNat / 2 / 2 ^ rest.length = index.toNat / 2 ^ (rest.length + 1) := by
        rw [Nat.div_div_eq_div_mul, pow_succ']
      have shifted : index >>> 1 >>> rest.length = index >>> (rest.length + 1) := by
        rw [Nat.add_comm, BitVec.shiftRight_add]
      have above (hashed : B) : merkleLoop (index.toNat / 2) 0 rest hashed = merkleLoop index.toNat 1 rest hashed :=
        merkleLoop_div index.toNat 1 0 rest hashed
      rw [round, ih, half, down, shifted, merkleLoop_cons, above, List.length_cons]
      simp only [reduceCtorEq, false_or, pow_zero, Nat.div_one]
      by_cases out : index.toNat / 2 = 0
      · rw [if_pos out, if_neg]
        rw [← down, out, Nat.zero_div]
        exact fun differs => differs rfl
      · rw [if_neg out]
        by_cases last : rest = []
        · subst last
          simp [out]
        · simp [last]

/-- The verifier accepts no other shifted index than one. -/
theorem verifyProof_eq [DecidableEq B] (memory : Word → B) (proof : List B) (root leaf : B) (index : Word) :
    verifyProof memory proof root leaf index =
      if index.toNat / 2 ^ proof.length = 1 then .ok (decide (merkleLoop index.toNat 0 proof leaf = root))
      else if proof = [] ∨ index.toNat / 2 ^ proof.length ≠ 0 then .error .branchHasMissingItem
      else .error .branchHasExtraItem := by
  have shifted : (index >>> proof.length).toNat = index.toNat / 2 ^ proof.length := by
    rw [BitVec.toNat_ushiftRight, Nat.shiftRight_eq_div_pow]
  have one : ¬ index >>> proof.length - 1 > 0 ↔ index.toNat / 2 ^ proof.length = 1 := by
    rw [← shifted]
    generalize index >>> proof.length = top
    rw [gt_iff_lt, BitVec.not_lt]
    bv_omega
  rw [verifyProof, verifyLoop_eq]
  by_cases some : proof = [] ∨ index.toNat / 2 ^ proof.length ≠ 0
  · rw [if_pos some, ok_bind]
    simp only [require, one, if_pos some]
    split_ifs <;> rfl
  · rw [if_neg some, if_neg some, if_neg fun top => some (.inr (by omega))]
    rfl

/-- Both verifiers revert on the same inputs, and elsewhere both accept the same root. -/
theorem verifyProof_agrees [DecidableEq B] (memory : Word → B) (proof : List B) (root leaf : B) (index : Word) :
    ((∃ failure, verifyProof memory proof root leaf index = .error failure) ↔
      ∃ failure, calculateMerkleRoot proof leaf index.toNat = .error failure) ∧
    ∀ valid, verifyProof memory proof root leaf index = .ok valid →
      (valid = true ↔ calculateMerkleRoot proof leaf index.toNat = .ok root) := by
  rw [verifyProof_eq]
  by_cases top : index.toNat / 2 ^ proof.length = 1
  · obtain ⟨positive, length⟩ := div_eq_one.mp top
    rw [if_pos top, calculateMerkleRoot_eq proof leaf positive index.isLt, if_pos length]
    simp
  · have fails : ∃ failure, calculateMerkleRoot proof leaf index.toNat = .error failure := by
      by_cases positive : 1 ≤ index.toNat
      · have length : proof.length ≠ index.toNat.log2 := fun same => top (div_eq_one.mpr ⟨positive, same⟩)
        exact ⟨_, (calculateMerkleRoot_eq proof leaf positive index.isLt).trans (if_neg length)⟩
      · rw [show index.toNat = 0 by omega]
        exact ⟨_, calculateMerkleRoot_zero proof leaf⟩
    rw [if_neg top]
    split_ifs <;> simp [fails]

/-- The branch of the node 2 has one item. -/
theorem verifyProof_agrees_two :
    calculateMerkleRoot [Term.word 3] (Term.word 2) 2 = .ok (.hash (.word 2) (.word 3)) :=
  ((verifyProof_agrees (fun _ => Term.word 0) [Term.word 3] (.hash (.word 2) (.word 3)) (.word 2) 2).2 true
    (by decide +kernel)).mp rfl

end SmoothlyPool.SSZ
