import SmoothlyPool.Proof.Merkle.HelperIndices
import SmoothlyPool.Proof.Merkle.WorkList

namespace SmoothlyPool.Merkle

open Bytes32 Checked Arrays GIndex

variable {B : Type}

/-- The two loops that fill the map before the hashing starts. -/
def supply (helpers : List ℕ) (proof : List B) (indices : List ℕ) (leaves : List B) (map : HashMap B) :
    HashMap B :=
  setAll indices leaves (setAll helpers proof map)

/-- The work list starts with the helper indices and the indices. -/
def startKeys (helpers indices : List ℕ) : List ℕ := sortReverse (concat helpers indices)

theorem mem_startKeys {helpers indices : List ℕ} {k : ℕ} :
    k ∈ startKeys helpers indices ↔ k ∈ helpers ∨ k ∈ indices := by
  rw [startKeys, mem_sortReverse, concat, List.mem_append]

section Supply

variable {helpers indices : List ℕ} {proof leaves : List B} {map : HashMap B}

theorem supply_flag (leafCount : leaves.length = indices.length) (proofCount : proof.length = helpers.length)
    {k : ℕ} : (supply helpers proof indices leaves map).flag k = true ↔
      map.flag k = true ∨ k ∈ helpers ∨ k ∈ indices := by
  rw [supply, setAll_flag indices leaves _ leafCount, setAll_flag helpers proof _ proofCount, or_assoc]

theorem supply_value_of_notMem {k : ℕ} (noHelper : k ∉ helpers) (unlisted : k ∉ indices) :
    (supply helpers proof indices leaves map).value k = map.value k := by
  rw [supply, setAll_value_of_notMem _ _ _ unlisted, setAll_value_of_notMem _ _ _ noHelper]

/-- The supplied keys do not depend on the map. -/
theorem supply_value_of_mem (leafCount : leaves.length = indices.length)
    (proofCount : proof.length = helpers.length) (other : HashMap B) {k : ℕ}
    (present : k ∈ helpers ∨ k ∈ indices) :
    (supply helpers proof indices leaves map).value k = (supply helpers proof indices leaves other).value k := by
  rw [supply, supply]
  by_cases listed : k ∈ indices
  · exact setAll_value_of_mem indices leaves _ _ leafCount listed
  · rw [setAll_value_of_notMem _ _ _ listed, setAll_value_of_notMem _ _ _ listed]
    exact setAll_value_of_mem helpers proof _ _ proofCount (present.resolve_right listed)

/-- Labels supply each key with its label. -/
theorem supply_labels (label : ℕ → B) {k : ℕ} (present : k ∈ helpers ∨ k ∈ indices) :
    (supply helpers (helpers.map label) indices (indices.map label) map).value k = label k := by
  rw [supply]
  by_cases listed : k ∈ indices
  · exact setAll_map label indices _ listed
  · rw [setAll_value_of_notMem _ _ _ listed]
    exact setAll_map label helpers _ (present.resolve_right listed)

end Supply

variable [Bytes32 B]

/-- The multiproof takes the supplied map through the work list. -/
theorem calculateMultiMerkleRoot_ok {proof leaves : List B} {indices helpers : List ℕ} {map final : HashMap B}
    {root : B} (built : getHelperIndices indices = .ok helpers) :
    calculateMultiMerkleRoot proof leaves indices map = .ok (root, final) ↔
      leaves.length = indices.length ∧ proof.length = helpers.length ∧
      hashKeys (keyBudget (startKeys helpers indices)) (startKeys helpers indices)
        (supply helpers proof indices leaves map) = .ok final ∧
      final.value 1 = root := by
  simp only [calculateMultiMerkleRoot, bind_eq_ok, built, require_eq_ok]
  constructor
  · rintro ⟨_, leafCount, _, same, _, proofCount, final', ran, result⟩
    cases same
    cases result
    exact ⟨leafCount, proofCount, ran, rfl⟩
  · rintro ⟨leafCount, proofCount, ran, rfl⟩
    exact ⟨(), leafCount, helpers, rfl, (), proofCount, final, ran, rfl⟩

/-- The helper indices complete the paths. -/
def Completes (helpers indices : List ℕ) : Prop :=
  ∀ x, x ∈ helpers ↔ 2 ≤ x ∧ OnPath indices (x ^^^ 1) ∧ ¬ OnPath indices x

/-- A node is interior when it lies strictly above one of the indices. -/
def Interior (indices : List ℕ) (k : ℕ) : Prop := ∃ index ∈ indices, Above k index ∧ k ≠ index

theorem OnPath.interior {indices : List ℕ} {k : ℕ} (onPath : OnPath indices k) (unlisted : k ∉ indices) :
    Interior indices k := by
  obtain ⟨index, listed, above⟩ := onPath
  exact ⟨index, listed, above, fun same => unlisted (same ▸ listed)⟩

theorem Interior.onPath {indices : List ℕ} {k : ℕ} (interior : Interior indices k) : OnPath indices k := by
  obtain ⟨index, listed, above, _⟩ := interior
  exact ⟨index, listed, above⟩

/-- The parent of a node on a path is interior. -/
theorem OnPath.parent_interior {indices : List ℕ} {k : ℕ} (positive : 1 ≤ k) (onPath : OnPath indices k) :
    Interior indices (k / 2) := by
  obtain ⟨index, listed, above⟩ := onPath
  have bound := above.le
  exact ⟨index, listed, above.parent, by omega⟩

/-- An interior node has two children, and one of them is on a path. -/
theorem Interior.child {indices : List ℕ} {k : ℕ} (interior : Interior indices k) :
    ∃ child, child / 2 = k ∧ OnPath indices child := by
  obtain ⟨index, listed, above, proper⟩ := interior
  obtain ⟨child, parent, below⟩ := above.child proper
  exact ⟨child, parent, index, listed, below⟩

section Fresh

variable {helpers indices : List ℕ} {proof leaves : List B} {final : HashMap B}

/-- The supplied keys wait in the work list. -/
theorem tracked_supply (leafCount : leaves.length = indices.length) (proofCount : proof.length = helpers.length) :
    Tracked (startKeys helpers indices) (supply helpers proof indices leaves .empty) := by
  intro k _ self _ _
  rw [supply_flag leafCount proofCount] at self
  rw [mem_startKeys]
  exact .inl (self.resolve_left (by simp [HashMap.empty]))

/-- From an empty map the work list reaches every node of every path. -/
theorem path_set (completes : Completes helpers indices) (leafCount : leaves.length = indices.length)
    (proofCount : proof.length = helpers.length) {fuel : ℕ}
    (ran : hashKeys fuel (startKeys helpers indices) (supply helpers proof indices leaves .empty) = .ok final)
    {k : ℕ} (positive : 1 ≤ k) (onPath : OnPath indices k) : final.flag k = true := by
  have kept (k : ℕ) (present : k ∈ helpers ∨ k ∈ indices) : final.flag k = true :=
    ((hashKeys_extends ran).kept k ((supply_flag leafCount proofCount).mpr (.inr present))).1
  -- The induction goes down the tree, and the largest index bounds the way.
  induction room : indices.sum - k using Nat.strong_induction_on generalizing k with
  | _ room ih =>
      by_cases listed : k ∈ indices
      · exact kept k (.inr listed)
      · obtain ⟨child, rfl, below⟩ := (onPath.interior listed).child
        obtain ⟨index, member, above⟩ := below
        have bound : child ≤ indices.sum := above.le.trans (List.le_sum_of_mem member)
        have self : final.flag child = true := ih _ (by omega) (by omega) ⟨index, member, above⟩ rfl
        have sibling : final.flag (child ^^^ 1) = true := by
          by_cases also : OnPath indices (child ^^^ 1)
          · have same := sibling_div_two child
            exact ih _ (by omega) (by omega) also rfl
          · apply kept _ (.inl _)
            rw [completes, sibling_sibling]
            exact ⟨two_le_sibling.mpr (by omega), ⟨index, member, above⟩, also⟩
        exact hashKeys_closed (tracked_supply leafCount proofCount) ran (by omega) self sibling

/-- A node of a path that is not listed holds the hash of its children. -/
theorem interior_hashed (completes : Completes helpers indices) (leafCount : leaves.length = indices.length)
    (proofCount : proof.length = helpers.length) {fuel : ℕ}
    (ran : hashKeys fuel (startKeys helpers indices) (supply helpers proof indices leaves .empty) = .ok final)
    {k : ℕ} (positive : 1 ≤ k) (onPath : OnPath indices k) (unlisted : k ∉ indices) :
    HashedAt sha256 final.value k := by
  have set := path_set completes leafCount proofCount ran positive onPath
  refine ((hashKeys_extends ran).made k set ?_).2.2.2
  rw [Bool.eq_false_iff, ne_eq, supply_flag leafCount proofCount]
  rintro (absent | helper | listed)
  · simp [HashMap.empty] at absent
  · exact ((completes k).mp helper).2.2 onPath
  · exact unlisted listed

end Fresh

/-- Every set key holds its label, and it is a helper or a node of a path. -/
def Labelled (label : ℕ → B) (helpers indices : List ℕ) (map : HashMap B) : Prop :=
  ∀ k, map.flag k = true → (k ∈ helpers ∨ OnPath indices k) ∧ map.value k = label k

/-- The parents of helpers and of path nodes are interior, so the hash of two labels is the label. -/
theorem Labelled.hash {label : ℕ → B} {helpers indices : List ℕ} {map : HashMap B} {k : ℕ}
    (completes : Completes helpers indices)
    (hashed : ∀ k, 1 ≤ k → Interior indices k → HashedAt sha256 label k)
    (labelled : Labelled label helpers indices map) (can : canHash map k = true) :
    Labelled label helpers indices (hashPair map k) := by
  have large := two_le_of_canHash can
  obtain ⟨self, _, _⟩ := canHash_iff.mp can
  obtain ⟨left, right⟩ := children_set can
  have interior : Interior indices (k / 2) := by
    rcases (labelled k self).1 with helper | onPath
    · rw [← sibling_div_two]
      exact ((completes k).mp helper).2.1.parent_interior (Nat.one_le_of_lt (two_le_sibling.mpr large))
    · exact onPath.parent_interior (by omega)
  intro j set
  rw [hashPair_flag] at set
  rw [hashPair_value]
  by_cases new : j = k / 2
  · subst new
    rw [Function.update_self, (labelled _ left).2, (labelled _ right).2]
    exact ⟨.inr interior.onPath, (hashed (k / 2) (by omega) interior).symm⟩
  · rw [Function.update_of_ne new] at set ⊢
    exact labelled j set

/-- A map that is supplied with the labels of a tree reaches the label of the root. -/
theorem calculateMultiMerkleRoot_of_supply (label : ℕ → B) {proof leaves : List B} {helpers indices : List ℕ}
    (built : getHelperIndices indices = .ok helpers) (completes : Completes helpers indices)
    (leafCount : leaves.length = indices.length) (proofCount : proof.length = helpers.length)
    (supplied : ∀ k, k ∈ helpers ∨ k ∈ indices →
      (supply helpers proof indices leaves .empty).value k = label k)
    (hashed : ∀ k, 1 ≤ k → Interior indices k → HashedAt sha256 label k)
    (some : ∃ index ∈ indices, 1 ≤ index) :
    ∃ final, calculateMultiMerkleRoot proof leaves indices .empty = .ok (label 1, final) := by
  obtain ⟨final, ran⟩ := hashKeys_ok (keyBudget (startKeys helpers indices)) (startKeys helpers indices)
    (supply helpers proof indices leaves .empty) le_rfl
  have start : Labelled label helpers indices (supply helpers proof indices leaves .empty) := by
    intro k set
    rw [supply_flag leafCount proofCount] at set
    have present := set.resolve_left (by simp [HashMap.empty])
    exact ⟨present.imp_right fun listed => ⟨k, listed, .refl k⟩, supplied k present⟩
  have labelled := hashKeys_invariant (fun _ _ labelled can => labelled.hash completes hashed can) start ran
  obtain ⟨index, listed, positive⟩ := some
  have root := path_set completes leafCount proofCount ran le_rfl ⟨index, listed, root_above positive⟩
  exact ⟨final, (calculateMultiMerkleRoot_ok built).mpr ⟨leafCount, proofCount, ran, (labelled 1 root).2⟩⟩

/-- The labels of a tree at the indices and the helper indices verify against the label of the root. -/
theorem calculateMultiMerkleRoot_labels (label : ℕ → B) {helpers indices : List ℕ}
    (built : getHelperIndices indices = .ok helpers) (completes : Completes helpers indices)
    (hashed : ∀ k, 1 ≤ k → Interior indices k → HashedAt sha256 label k)
    (some : ∃ index ∈ indices, 1 ≤ index) :
    ∃ final, calculateMultiMerkleRoot (helpers.map label) (indices.map label) indices .empty =
      .ok (label 1, final) :=
  calculateMultiMerkleRoot_of_supply label built completes (List.length_map label) (List.length_map label)
    (fun _ present => supply_labels label present) hashed some

/-- A multiproof against the root of a tree carries the label of each index below no other index. -/
theorem calculateMultiMerkleRoot_agrees [CollisionFree B] {label : ℕ → B} {proof leaves : List B}
    {helpers indices : List ℕ} {final : HashMap B} {index : ℕ} (built : getHelperIndices indices = .ok helpers)
    (completes : Completes helpers indices) (listed : index ∈ indices) (positive : 1 ≤ index)
    (lowest : ∀ k ∈ indices, Above k index → k = index)
    (hashed : ∀ k, 1 ≤ k → Above k index → k ≠ index → HashedAt sha256 label k)
    (verified : calculateMultiMerkleRoot proof leaves indices .empty = .ok (label 1, final)) :
    (supply helpers proof indices leaves .empty).value index = label index := by
  obtain ⟨leafCount, proofCount, ran, root⟩ := (calculateMultiMerkleRoot_ok built).mp verified
  have kept := (hashKeys_extends ran).kept index ((supply_flag leafCount proofCount).mpr (.inr (.inr listed)))
  rw [← kept.2]
  apply agree_of_hashed CollisionFree.sha256_injective positive root
  · intro k present above proper
    apply interior_hashed completes leafCount proofCount ran present ⟨index, listed, above⟩
    intro member
    exact proper (lowest k member above)
  · exact hashed

end SmoothlyPool.Merkle
