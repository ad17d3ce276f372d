import SmoothlyPool.Proof.Merkle.Frontier
import SmoothlyPool.Proof.Strings

namespace SmoothlyPool.Merkle

open Bytes32 Checked Arrays GIndex

variable {B : Type}

/-- The values of distinct keys can be read back. -/
theorem setAll_values {keys : List ℕ} {values : List B} (map : HashMap B) (distinct : keys.Nodup)
    (lengths : values.length = keys.length) : values = keys.map (setAll keys values map).value := by
  induction keys generalizing values map with
  | nil => simpa using lengths
  | cons key keys ih =>
      cases values with
      | nil => simp at lengths
      | cons value values =>
          obtain ⟨fresh, others⟩ := List.nodup_cons.mp distinct
          rw [List.map_cons, setAll, setAll_value_of_notMem _ _ _ fresh, HashMap.set_value, Function.update_self,
            ← ih _ others (by simpa using lengths)]

variable [Bytes32 B]

section Fresh

variable {helpers indices : List ℕ} {proof leaves : List B} {final : HashMap B} {label : ℕ → B} {fuel : ℕ}

/-- A node above a path node is not listed, unless it is that node. -/
theorem PrefixFree.unlisted {a k : ℕ} (free : PrefixFree indices) (onPath : OnPath indices k)
    (above : Above a k) (proper : a ≠ k) : a ∉ indices := by
  intro listed
  obtain ⟨index, also, below⟩ := onPath
  have same := free a listed index also (above.trans below)
  have low := above.le
  have high := below.le
  omega

/-- From the root the final map agrees with the tree along every path. -/
theorem path_agrees [CollisionFree B] (completes : Completes helpers indices) (free : PrefixFree indices)
    (leafCount : leaves.length = indices.length) (proofCount : proof.length = helpers.length)
    (hashed : ∀ k, 1 ≤ k → Interior indices k → HashedAt sha256 label k)
    (ran : hashKeys fuel (startKeys helpers indices) (supply helpers proof indices leaves .empty) = .ok final)
    (root : final.value 1 = label 1) {k : ℕ} (positive : 1 ≤ k) (onPath : OnPath indices k) :
    final.value k = label k := by
  obtain ⟨index, listed, below⟩ := id onPath
  apply agree_of_hashed CollisionFree.sha256_injective positive root
  · intro a present above proper
    exact interior_hashed completes leafCount proofCount ran present ⟨index, listed, above.trans below⟩
      (free.unlisted onPath above proper)
  · intro a present above proper
    refine hashed a present ⟨index, listed, above.trans below, ?_⟩
    have low := above.le
    have high := below.le
    omega

/-- A helper agrees with the tree, because its parent does. -/
theorem helper_agrees [CollisionFree B] (completes : Completes helpers indices) (free : PrefixFree indices)
    (leafCount : leaves.length = indices.length) (proofCount : proof.length = helpers.length)
    (hashed : ∀ k, 1 ≤ k → Interior indices k → HashedAt sha256 label k)
    (ran : hashKeys fuel (startKeys helpers indices) (supply helpers proof indices leaves .empty) = .ok final)
    (root : final.value 1 = label 1) {h : ℕ} (helper : h ∈ helpers) : final.value h = label h := by
  obtain ⟨large, sibling, _⟩ := (completes h).mp helper
  have parent : Above (h / 2) (h ^^^ 1) := ⟨1, by rw [pow_one, sibling_div_two]⟩
  have lower : h / 2 ≠ h ^^^ 1 := by
    rw [sibling_eq]
    omega
  have present : 1 ≤ h / 2 := by omega
  have interior := sibling.parent_interior (Nat.one_le_of_lt (two_le_sibling.mpr large))
  rw [sibling_div_two] at interior
  apply HashedAt.child CollisionFree.sha256_injective
  · exact interior_hashed completes leafCount proofCount ran present interior.onPath
      (free.unlisted sibling parent lower)
  · exact hashed (h / 2) present interior
  · exact path_agrees completes free leafCount proofCount hashed ran root present interior.onPath

end Fresh

/-- A multiproof that reaches the root of a tree carries the labels of the tree, in its leaves and in its
proof. -/
theorem multiproof_sound [CollisionFree B] {indices : List ℕ} (positive : ∀ index ∈ indices, 1 ≤ index)
    (distinct : indices.Nodup) (free : PrefixFree indices) {label : ℕ → B}
    (hashed : ∀ k, 1 ≤ k → Interior indices k → HashedAt sha256 label k) {proof leaves : List B}
    {final : HashMap B}
    (verified : calculateMultiMerkleRoot proof leaves indices .empty = .ok (label 1, final)) :
    leaves = indices.map label ∧
    ∃ helpers, getHelperIndices indices = .ok helpers ∧ proof = helpers.map label := by
  obtain ⟨helpers, built, completes⟩ := getHelperIndices_ok indices
  obtain ⟨leafCount, proofCount, ran, root⟩ := (calculateMultiMerkleRoot_ok built).mp verified
  have kept (k : ℕ) (present : k ∈ helpers ∨ k ∈ indices) :
      final.value k = (supply helpers proof indices leaves .empty).value k :=
    ((hashKeys_extends ran).kept k ((supply_flag leafCount proofCount).mpr (.inr present))).2
  refine ⟨?_, helpers, built, ?_⟩
  · rw [setAll_values (setAll helpers proof .empty) distinct leafCount]
    apply List.map_congr_left
    intro k listed
    rw [← supply, ← kept k (.inr listed)]
    exact path_agrees completes free leafCount proofCount hashed ran root (positive k listed)
      ⟨k, listed, .refl k⟩
  · rw [setAll_values .empty (getHelperIndices_nodup built) proofCount]
    apply List.map_congr_left
    intro h helper
    have unlisted : h ∉ indices := fun listed => ((completes h).mp helper).2.2 ⟨h, listed, .refl h⟩
    rw [← setAll_value_of_notMem indices leaves _ unlisted, ← supply, ← kept h (.inl helper)]
    exact helper_agrees completes free leafCount proofCount hashed ran root helper

/-- The multiproof of three nodes of the tree of node strings carries the nodes. -/
theorem three_nodes_sound :
    [.node 4, .node 10, .node 6] = [4, 10, 6].map (NodeString.node : ℕ → NodeString BitVec.toNat) ∧
    ∃ helpers, getHelperIndices [4, 10, 6] = .ok helpers ∧
      [.node 11, .node 7] = helpers.map (NodeString.node : ℕ → NodeString BitVec.toNat) := by
  have free : CollisionFree (NodeString BitVec.toNat) :=
    NodeString.collisionFree fun _ _ same => BitVec.eq_of_toNat_eq same
  exact multiproof_sound (by decide) (by decide) (by decide) (fun k _ _ => NodeString.node_hashed k) rfl

/-- The labels of a tree at the indices and at the helper indices verify against its root. -/
theorem multiproof_complete {indices : List ℕ} (nonempty : indices ≠ [])
    (positive : ∀ index ∈ indices, 1 ≤ index) (label : ℕ → B)
    (hashed : ∀ k, 1 ≤ k → Interior indices k → HashedAt sha256 label k) :
    ∃ helpers final, getHelperIndices indices = .ok helpers ∧
      calculateMultiMerkleRoot (helpers.map label) (indices.map label) indices .empty =
        .ok (label 1, final) := by
  obtain ⟨helpers, built, completes⟩ := getHelperIndices_ok indices
  obtain ⟨index, listed⟩ := List.exists_mem_of_ne_nil indices nonempty
  obtain ⟨final, computed⟩ := calculateMultiMerkleRoot_labels label built completes hashed
    ⟨index, listed, positive index listed⟩
  exact ⟨helpers, final, built, computed⟩

/-- The nodes of the tree of node strings at three indices verify. -/
theorem three_nodes_complete :
    ∃ helpers final, getHelperIndices [4, 10, 6] = .ok helpers ∧
      calculateMultiMerkleRoot (helpers.map (NodeString.node : ℕ → NodeString BitVec.toNat))
        ([4, 10, 6].map .node) [4, 10, 6] .empty = .ok (.node 1, final) :=
  multiproof_complete (by decide) (by decide) NodeString.node fun k _ _ => NodeString.node_hashed k

end SmoothlyPool.Merkle
