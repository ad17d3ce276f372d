import SmoothlyPool.Proof.Merkle.Branch
import SmoothlyPool.Proof.Merkle.Frontier

namespace SmoothlyPool.Merkle

open Bytes32 Checked Arrays GIndex

theorem onPath_singleton {index x : ℕ} : OnPath [index] x ↔ Above x index := by simp [OnPath]

/-- A node of the path lies below the root exactly when its height is less than the depth of the index. -/
theorem two_le_div {index height : ℕ} (positive : 1 ≤ index) :
    2 ≤ index / 2 ^ height ↔ height < index.log2 := by
  rw [Nat.le_div_iff_mul_le (Nat.two_pow_pos height), ← pow_succ', ← Nat.le_log2 (by omega)]
  exact Nat.succ_le_iff

theorem log2_div {index height : ℕ} (positive : 1 ≤ index) (low : height ≤ index.log2) :
    (index / 2 ^ height).log2 = index.log2 - height := by
  have present : 0 < index >>> height := by
    rw [Nat.shiftRight_eq_div_pow]
    exact Nat.div_pos ((Nat.le_log2 (by omega)).mp low) (Nat.two_pow_pos height)
  have sum := log2_shiftRight_add present
  rw [Nat.shiftRight_eq_div_pow] at sum
  omega

theorem log2_sibling {k : ℕ} (large : 2 ≤ k) : (k ^^^ 1).log2 = k.log2 := by
  rw [Nat.log2_def k, if_pos large, Nat.log2_def (k ^^^ 1), if_pos (two_le_sibling.mpr large), sibling_div_two]

/-- The siblings of the path, from the bottom up. -/
def siblings (index : ℕ) : List ℕ := (List.range index.log2).map fun height => index / 2 ^ height ^^^ 1

theorem siblings_descending {index : ℕ} (positive : 1 ≤ index) : (siblings index).Pairwise (· > ·) := by
  rw [siblings, List.pairwise_map]
  apply List.pairwise_lt_range.imp_of_mem
  intro low high _ inside less
  have large := (two_le_div positive).mpr (List.mem_range.mp inside)
  have apart : index / 2 ^ high ≤ index / 2 ^ low / 2 := by
    rw [Nat.div_div_eq_div_mul, ← pow_succ]
    exact Nat.div_le_div_left (Nat.pow_le_pow_right (by omega) less) (Nat.two_pow_pos _)
  rw [gt_iff_lt, sibling_eq, sibling_eq]
  omega

/-- The helper indices descend, and so do the siblings of the path. -/
theorem getHelperIndices_single {index : ℕ} (positive : 1 ≤ index) :
    getHelperIndices [index] = .ok (siblings index) := by
  obtain ⟨helpers, built, completes⟩ := getHelperIndices_ok [index]
  have same : helpers = siblings index := by
    apply (getHelperIndices_descending built).eq_of_mem_iff (siblings_descending positive)
    intro x
    rw [completes, onPath_singleton, onPath_singleton, siblings, List.mem_map]
    constructor
    · rintro ⟨large, ⟨height, above⟩, _⟩
      refine ⟨height, List.mem_range.mpr ?_, by rw [above, sibling_sibling]⟩
      rw [← two_le_div positive, above]
      exact two_le_sibling.mpr large
    · rintro ⟨height, inside, rfl⟩
      have large := (two_le_div positive).mpr (List.mem_range.mp inside)
      rw [sibling_sibling]
      exact ⟨two_le_sibling.mpr large, ⟨height, rfl⟩, Above.sibling ⟨height, rfl⟩ large⟩
  rw [built, same]

variable {B : Type} [Bytes32 B]

/-- The hashes of the loop are the labels of the path, and the items of the branch are the labels of its siblings. -/
def branchLabel (proof : List B) (leaf : B) (index k : ℕ) : B :=
  let height := index.log2 - k.log2
  if index / 2 ^ height = k then merkleLoop index 0 (proof.take height) leaf else proof.getD height zero

theorem branchLabel_path (proof : List B) (leaf : B) {index height : ℕ} (positive : 1 ≤ index)
    (low : height ≤ index.log2) :
    branchLabel proof leaf index (index / 2 ^ height) = merkleLoop index 0 (proof.take height) leaf := by
  have depth : index.log2 - (index / 2 ^ height).log2 = height := by
    rw [log2_div positive low]
    omega
  simp [branchLabel, depth]

theorem branchLabel_sibling (proof : List B) (leaf : B) {index height : ℕ} (positive : 1 ≤ index)
    (low : height < index.log2) :
    branchLabel proof leaf index (index / 2 ^ height ^^^ 1) = proof.getD height zero := by
  have large := (two_le_div positive).mpr low
  have depth : index.log2 - (index / 2 ^ height ^^^ 1).log2 = height := by
    rw [log2_sibling large, log2_div positive low.le]
    omega
  have other : index / 2 ^ height ≠ index / 2 ^ height ^^^ 1 := by
    rw [sibling_eq]
    omega
  simp [branchLabel, depth, other]

/-- One round of the loop hashes the labels of a node and of its sibling. -/
theorem branchLabel_hashed {proof : List B} (leaf : B) {index : ℕ} (positive : 1 ≤ index)
    (length : proof.length = index.log2) {k : ℕ} (present : 1 ≤ k) (interior : Interior [index] k) :
    HashedAt sha256 (branchLabel proof leaf index) k := by
  obtain ⟨child, rfl, onPath⟩ := interior.child
  obtain ⟨height, rfl⟩ := onPath_singleton.mp onPath
  have low : height < index.log2 := (two_le_div positive).mp (by omega)
  have parent : index / 2 ^ height / 2 = index / 2 ^ (height + 1) := by rw [Nat.div_div_eq_div_mul, pow_succ]
  have item : proof[height]? = some (proof.getD height zero) := by simp [length, low]
  rw [hashedAt_parent, branchLabel_path proof leaf positive low.le, branchLabel_sibling proof leaf positive low,
    parent, branchLabel_path proof leaf positive low, List.take_add_one, item, Option.toList_some, merkleLoop_append,
    merkleLoop_cons]
  simp [merkleLoop, length, low.le]

/-- From an empty map, both functions fail alike or return the same root. -/
theorem calculateMultiMerkleRoot_single (proof : List B) (leaf : B) {index : ℕ} (positive : 1 ≤ index)
    (bound : index < 2 ^ 256) :
    (calculateMultiMerkleRoot proof [leaf] [index] .empty).map Prod.fst = calculateMerkleRoot proof leaf index := by
  have built := getHelperIndices_single positive
  have count : (siblings index).length = index.log2 := by simp [siblings]
  rw [calculateMerkleRoot_eq proof leaf positive bound]
  by_cases length : proof.length = index.log2
  · rw [if_pos length]
    have items : (siblings index).map (branchLabel proof leaf index) = proof := by
      apply List.ext_getElem (by simp [count, length])
      intro height inside _
      have low : height < index.log2 := by simpa [count] using inside
      simp [siblings, branchLabel_sibling proof leaf positive low, length, low]
    have self : branchLabel proof leaf index index = leaf := by
      simpa [merkleLoop] using branchLabel_path proof leaf positive (Nat.zero_le _)
    have root : branchLabel proof leaf index 1 = merkleLoop index 0 proof leaf := by
      rw [← div_log2 positive, branchLabel_path proof leaf positive le_rfl, ← length, List.take_length]
    obtain ⟨helpers, others, completes⟩ := getHelperIndices_ok [index]
    obtain rfl : siblings index = helpers := Except.ok.inj (built.symm.trans others)
    obtain ⟨final, ran⟩ := calculateMultiMerkleRoot_labels (branchLabel proof leaf index) built completes
      (fun k present interior => branchLabel_hashed leaf positive length present interior) ⟨index, by simp, positive⟩
    rw [items, List.map_singleton, self, root] at ran
    rw [ran]
    rfl
  · rw [if_neg length, calculateMultiMerkleRoot, built]
    simp [require, count, length, Except.map]

/-- The node 5 has the siblings 4 and 3. -/
theorem calculateMultiMerkleRoot_five :
    (calculateMultiMerkleRoot [Term.word 4, Term.word 3] [Term.word 5] [5] .empty).map Prod.fst =
      calculateMerkleRoot [Term.word 4, Term.word 3] (Term.word 5) 5 :=
  calculateMultiMerkleRoot_single [Term.word 4, Term.word 3] (Term.word 5) (by decide) (by decide)

end SmoothlyPool.Merkle
