import Mathlib.Data.Nat.Bitwise
import SmoothlyPool.Library.GIndex
import SmoothlyPool.Proof.Merkle.Log2
import SmoothlyPool.Proof.Strings

namespace SmoothlyPool.Merkle

open Bytes32 Checked GIndex

variable {B : Type} [Bytes32 B]

/-- The mask reads the bit that tells the right child from the left one. -/
theorem and_shift_pos {index i : ℕ} : 0 < index &&& (1 <<< i) ↔ index / 2 ^ i % 2 = 1 := by
  rw [Nat.one_shiftLeft, Nat.and_two_pow, Nat.testBit_eq_decide_div_mod_eq]
  have room := Nat.two_pow_pos i
  by_cases odd : index / 2 ^ i % 2 = 1 <;> simp [odd]

/-- One round replaces a child by its parent. -/
theorem merkleLoop_cons (index i : ℕ) (sibling leaf : B) (rest : List B) :
    merkleLoop index i (sibling :: rest) leaf = merkleLoop index (i + 1) rest
      (if index / 2 ^ i % 2 = 1 then sha256 sibling leaf else sha256 leaf sibling) := by
  rw [merkleLoop]
  simp only [and_shift_pos]
  split_ifs <;> rfl

/-- The loop reads one bit of the index at each level. -/
theorem merkleLoop_congr {first second i k : ℕ} (proof : List B) (leaf : B)
    (bits : ∀ j < proof.length, first / 2 ^ (i + j) % 2 = second / 2 ^ (k + j) % 2) :
    merkleLoop first i proof leaf = merkleLoop second k proof leaf := by
  induction proof generalizing i k leaf with
  | nil => rfl
  | cons sibling rest ih =>
      have bit := bits 0 (Nat.succ_pos _)
      rw [Nat.add_zero, Nat.add_zero] at bit
      rw [merkleLoop_cons, merkleLoop_cons, bit]
      apply ih
      intro j inside
      have later := bits (j + 1) (by simpa using inside)
      rwa [show i + (j + 1) = i + 1 + j by omega, show k + (j + 1) = k + 1 + j by omega] at later

/-- A loop that drops the lowest bits of the index reads the bits from a higher level. -/
theorem merkleLoop_div (index s i : ℕ) (proof : List B) (leaf : B) :
    merkleLoop (index / 2 ^ s) i proof leaf = merkleLoop index (s + i) proof leaf := by
  apply merkleLoop_congr
  intro j inside
  rw [Nat.div_div_eq_div_mul, ← pow_add, Nat.add_assoc]

/-- The loop takes a branch in two parts. -/
theorem merkleLoop_append (index i : ℕ) (lower upper : List B) (leaf : B) :
    merkleLoop index i (lower ++ upper) leaf =
      merkleLoop index (i + lower.length) upper (merkleLoop index i lower leaf) := by
  induction lower generalizing i leaf with
  | nil => rfl
  | cons sibling rest ih =>
      rw [List.cons_append, merkleLoop_cons, merkleLoop_cons, ih, List.length_cons]
      congr 1
      omega

/-- The induction is on the branch: the hash of each round is the label of the parent.
So the last hash is a label exactly when the first leaf and all siblings carry their labels. -/
theorem merkleLoop_exact [CollisionFree B] {label : ℕ → B} {index : ℕ} {proof : List B} {i : ℕ} {leaf : B}
    (hashed : ∀ j, i < j → j ≤ i + proof.length → HashedAt sha256 label (index / 2 ^ j)) :
    merkleLoop index i proof leaf = label (index / 2 ^ (i + proof.length)) ↔
      leaf = label (index / 2 ^ i) ∧
        ∀ j (inside : j < proof.length), proof[j] = label ((index / 2 ^ (i + j)) ^^^ 1) := by
  induction proof generalizing i leaf with
  | nil => simp [merkleLoop]
  | cons sibling rest ih =>
      rw [List.length_cons] at hashed
      have parent : index / 2 ^ (i + 1) = index / 2 ^ i / 2 := by
        rw [pow_succ, Nat.div_div_eq_div_mul]
      have hashedParent := hashed (i + 1) (by omega) (by omega)
      rw [parent] at hashedParent
      have next := @ih (i + 1) (if index / 2 ^ i % 2 = 1 then sha256 sibling leaf else sha256 leaf sibling)
        fun j above below => hashed j (by omega) (by omega)
      rw [parent, hashedParent.pair CollisionFree.sha256_injective] at next
      have length : i + (sibling :: rest).length = i + 1 + rest.length := by
        rw [List.length_cons]
        omega
      rw [merkleLoop_cons, length, next, and_assoc]
      apply and_congr_right'
      constructor
      · rintro ⟨first, later⟩ j inside
        cases j with
        | zero => exact first
        | succ j =>
            rw [show i + (j + 1) = i + 1 + j by omega]
            exact later j (by simpa using inside)
      · intro items
        refine ⟨items 0 (Nat.succ_pos _), ?_⟩
        intro j inside
        rw [show i + 1 + j = i + (j + 1) by omega]
        exact items (j + 1) (by simpa using inside)

/-- The branch is as long as the path of the index. -/
theorem calculateMerkleRoot_eq (proof : List B) (leaf : B) {index : ℕ} (positive : 0 < index)
    (bound : index < 2 ^ 256) :
    calculateMerkleRoot proof leaf index =
      if proof.length = index.log2 then .ok (merkleLoop index 0 proof leaf) else .error .invalidProof := by
  have short : index.log2 % 2 ^ 64 = index.log2 := by
    have low : index.log2 < 256 := (Nat.log2_lt positive.ne').mpr bound
    omega
  rw [calculateMerkleRoot, log2_ok positive bound, ok_bind, short, require]
  split_ifs <;> rfl

theorem calculateMerkleRoot_ok {proof : List B} {leaf root : B} {index : ℕ} (positive : 0 < index)
    (bound : index < 2 ^ 256) :
    calculateMerkleRoot proof leaf index = .ok root ↔
      proof.length = index.log2 ∧ merkleLoop index 0 proof leaf = root := by
  rw [calculateMerkleRoot_eq proof leaf positive bound]
  exact guarded_eq_ok

theorem calculateMerkleRoot_zero (proof : List B) (leaf : B) :
    calculateMerkleRoot proof leaf 0 = .error .log2Undefined := rfl

/-- A branch reaches the label of the root exactly when it holds the labels of the leaf and of the siblings. -/
theorem calculateMerkleRoot_labels [CollisionFree B] {label : ℕ → B} {proof : List B} {leaf : B} {index : ℕ}
    (positive : 0 < index) (bound : index < 2 ^ 256)
    (hashed : ∀ height, 0 < height → height ≤ index.log2 → HashedAt sha256 label (index / 2 ^ height)) :
    calculateMerkleRoot proof leaf index = .ok (label 1) ↔ proof.length = index.log2 ∧ leaf = label index ∧
      ∀ i (inside : i < proof.length), proof[i] = label ((index / 2 ^ i) ^^^ 1) := by
  rw [calculateMerkleRoot_ok positive bound]
  apply and_congr_right
  intro length
  have climbs := @merkleLoop_exact B _ _ label index proof 0 leaf
    fun height above below => hashed height above (by omega)
  simp only [Nat.zero_add, pow_zero, Nat.div_one] at climbs
  rw [← climbs, length, div_log2 positive]

/-- A verified branch carries the label of its node. -/
theorem calculateMerkleRoot_agrees [CollisionFree B] {label : ℕ → B} {proof : List B} {leaf : B} {index : ℕ}
    (positive : 0 < index) (bound : index < 2 ^ 256)
    (hashed : ∀ height, 0 < height → height ≤ index.log2 → HashedAt sha256 label (index / 2 ^ height))
    (verified : calculateMerkleRoot proof leaf index = .ok (label 1)) : leaf = label index :=
  ((calculateMerkleRoot_labels positive bound hashed).mp verified).2.1

/-- Every other branch reverts or returns another root. -/
theorem calculateMerkleRoot_exact [CollisionFree B] (proof : List B) (leaf : B) :
    (∀ index, 1 ≤ index → index < 2 ^ 256 → ∀ node : ℕ → B,
      (∀ k, 1 ≤ k → Above k index → k ≠ index → HashedAt sha256 node k) →
      (calculateMerkleRoot proof leaf index = .ok (node 1) ↔
        proof.length = index.log2 ∧ leaf = node index ∧
          ∀ i (inside : i < proof.length), proof[i] = node ((index >>> i) ^^^ 1))) ∧
    (∀ index, 1 ≤ index → index < 2 ^ 256 → proof.length ≠ index.log2 →
      calculateMerkleRoot proof leaf index = .error .invalidProof) ∧
    calculateMerkleRoot proof leaf 0 = .error .log2Undefined := by
  refine ⟨?_, ?_, calculateMerkleRoot_zero proof leaf⟩
  · intro index positive bound node hashed
    simp only [Nat.shiftRight_eq_div_pow]
    apply calculateMerkleRoot_labels positive bound
    intro height above below
    have high : 2 ^ height ≤ index :=
      (Nat.pow_le_pow_right (by omega) below).trans (Nat.log2_self_le (by omega))
    have low : 2 ≤ 2 ^ height := Nat.le_self_pow (by omega) 2
    apply hashed _ (Nat.div_pos high (by omega)) ⟨height, rfl⟩
    exact (Nat.div_lt_self positive low).ne
  · intro index positive bound other
    rw [calculateMerkleRoot_eq proof leaf positive bound, if_neg other]

/-- The labels of the nodes 5, 4 and 3 of a tree of pairs verify. -/
theorem calculateMerkleRoot_exact_five :
    calculateMerkleRoot [(PairNumber.mk 11).tree 4, (PairNumber.mk 11).tree 3] ((PairNumber.mk 11).tree 5) 5 =
      .ok ((PairNumber.mk 11).tree 1) := by
  have verifies := (calculateMerkleRoot_exact [(PairNumber.mk 11).tree 4, (PairNumber.mk 11).tree 3]
    ((PairNumber.mk 11).tree 5)).1 5 (by decide) (by decide) (PairNumber.mk 11).tree
    fun k positive _ _ => PairNumber.tree_hashed (PairNumber.mk 11) positive
  apply verifies.mpr
  refine ⟨rfl, rfl, ?_⟩
  intro i inside
  cases i with
  | zero => rfl
  | succ i =>
      obtain rfl : i = 0 := by simpa using inside
      rfl

end SmoothlyPool.Merkle
