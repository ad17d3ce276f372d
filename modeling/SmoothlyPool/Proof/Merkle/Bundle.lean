import SmoothlyPool.Proof.Merkle.SingleIndex
import SmoothlyPool.Proof.Merkle.Soundness

namespace SmoothlyPool.Merkle

open Bytes32 Checked Arrays GIndex

variable {B : Type}

section Order

/-- Stores under different keys commute. -/
theorem HashMap.set_comm {first second : ℕ} (other : first ≠ second) (value next : B) (map : HashMap B) :
    (map.set first value).set second next = (map.set second next).set first value := by
  rw [HashMap.set, HashMap.set, HashMap.set, HashMap.set, Function.update_comm other, Function.update_comm other]

/-- The order of the stores does not matter when no key occurs twice. -/
theorem setAll_perm {pairs others : List (ℕ × B)} (perm : pairs.Perm others) (map : HashMap B)
    (distinct : (pairs.map Prod.fst).Nodup) :
    setAll (pairs.map Prod.fst) (pairs.map Prod.snd) map =
      setAll (others.map Prod.fst) (others.map Prod.snd) map := by
  induction perm generalizing map with
  | nil => rfl
  | cons pair _ ih => exact ih _ (List.nodup_cons.mp distinct).2
  | swap first second rest =>
      simp only [List.map_cons, List.nodup_cons, List.mem_cons, not_or] at distinct
      simp only [List.map_cons, setAll]
      rw [HashMap.set_comm distinct.1.1]
  | trans first _ ih later =>
      exact (ih map distinct).trans (later map ((first.map Prod.fst).nodup_iff.mp distinct))

theorem onPath_perm {indices others : List ℕ} (perm : indices.Perm others) (k : ℕ) :
    OnPath indices k ↔ OnPath others k := by
  simp only [OnPath, perm.mem_iff]

/-- The frontier does not depend on the order of the indices. -/
theorem getHelperIndices_perm {indices others : List ℕ} (perm : indices.Perm others) :
    getHelperIndices indices = getHelperIndices others := by
  obtain ⟨helpers, built, completes⟩ := getHelperIndices_ok indices
  obtain ⟨also, builtToo, completesToo⟩ := getHelperIndices_ok others
  have same : helpers = also := by
    apply (getHelperIndices_descending built).eq_of_mem_iff (getHelperIndices_descending builtToo)
    intro x
    rw [completes, completesToo, onPath_perm perm, onPath_perm perm]
  rw [built, builtToo, same]

/-- The sort does not depend on the order of its array. -/
theorem startKeys_perm (helpers : List ℕ) {indices others : List ℕ} (perm : indices.Perm others) :
    startKeys helpers indices = startKeys helpers others := by
  apply List.Perm.eq_of_pairwise' (sortReverse_descending _) (sortReverse_descending _)
  exact (sortReverse_perm _).trans ((perm.append_left helpers).trans (sortReverse_perm _).symm)

variable [Bytes32 B]

/-- When no index occurs twice, the order in which a caller lists the nodes changes neither the outcome nor the
map that is left behind. -/
theorem calculateMultiMerkleRoot_order (proof : List B) {pairs others : List (ℕ × B)} (perm : pairs.Perm others)
    (distinct : (pairs.map Prod.fst).Nodup) (map : HashMap B) :
    calculateMultiMerkleRoot proof (pairs.map Prod.snd) (pairs.map Prod.fst) map =
      calculateMultiMerkleRoot proof (others.map Prod.snd) (others.map Prod.fst) map := by
  have listed := perm.map Prod.fst
  have keys (helpers : List ℕ) : sortReverse (concat helpers (pairs.map Prod.fst)) =
      sortReverse (concat helpers (others.map Prod.fst)) := startKeys_perm helpers listed
  simp only [calculateMultiMerkleRoot, List.length_map, getHelperIndices_perm listed, keys,
    setAll_perm perm _ distinct]

/-- The nodes 4, 10 and 6 verify in another order too. -/
theorem three_nodes_reordered :
    calculateMultiMerkleRoot [.node 11, .node 7] [.node 4, .node 10, .node 6] [4, 10, 6] .empty =
      calculateMultiMerkleRoot [.node 11, .node 7] [.node 6, .node 4, .node 10] [6, 4, 10]
        (.empty : HashMap (NodeString BitVec.toNat)) := by
  let pair (k : ℕ) : ℕ × NodeString BitVec.toNat := (k, .node k)
  have perm : ([pair 4, pair 10] ++ [pair 6]).Perm ([pair 6] ++ [pair 4, pair 10]) := List.perm_append_comm
  have reordered := calculateMultiMerkleRoot_order [.node 11, .node 7] perm (by decide) .empty
  simpa only [pair, List.cons_append, List.nil_append, List.map_cons, List.map_nil] using reordered

end Order

section Branches

variable [Bytes32 B]

/-- These are the labels of the siblings on the path of a node, from the node up. -/
def branch (label : ℕ → B) (index : ℕ) : List B :=
  (List.range index.log2).map fun i => label ((index / 2 ^ i) ^^^ 1)

/-- The loop climbs from label to label along the siblings. -/
theorem merkleLoop_branch {label : ℕ → B} {index : ℕ} (height i : ℕ)
    (hashed : ∀ j, i < j → j ≤ i + height → HashedAt sha256 label (index / 2 ^ j)) :
    merkleLoop index i ((List.range height).map fun j => label ((index / 2 ^ (i + j)) ^^^ 1))
      (label (index / 2 ^ i)) = label (index / 2 ^ (i + height)) := by
  induction height generalizing i with
  | zero => rfl
  | succ height ih =>
      have parent : index / 2 ^ (i + 1) = index / 2 ^ i / 2 := by
        rw [pow_succ, Nat.div_div_eq_div_mul]
      have climbs : (if index / 2 ^ i % 2 = 1 then
          sha256 (label ((index / 2 ^ i) ^^^ 1)) (label (index / 2 ^ i))
          else sha256 (label (index / 2 ^ i)) (label ((index / 2 ^ i) ^^^ 1))) = label (index / 2 ^ (i + 1)) := by
        have hashedParent := hashed (i + 1) (by omega) (by omega)
        rw [parent] at hashedParent ⊢
        exact (hashedAt_parent.mp hashedParent).symm
      have rest := ih (i + 1) fun j above below => hashed j (by omega) (by omega)
      have later : (fun j => label ((index / 2 ^ (i + j)) ^^^ 1)) ∘ Nat.succ =
          fun j => label ((index / 2 ^ (i + 1 + j)) ^^^ 1) := by
        funext j
        rw [Function.comp_apply, Nat.succ_eq_add_one, Nat.add_comm j, Nat.add_assoc]
      rw [List.range_succ_eq_map, List.map_cons, List.map_map, later, merkleLoop_cons, Nat.add_zero i, climbs, rest,
        Nat.add_right_comm, Nat.add_assoc]

/-- The siblings of a node verify against the root. -/
theorem calculateMerkleRoot_branch {label : ℕ → B} {index : ℕ} (positive : 0 < index) (bound : index < 2 ^ 256)
    (hashed : ∀ height, 0 < height → height ≤ index.log2 → HashedAt sha256 label (index / 2 ^ height)) :
    calculateMerkleRoot (branch label index) (label index) index = .ok (label 1) := by
  rw [calculateMerkleRoot_ok positive bound]
  refine ⟨by rw [branch, List.length_map, List.length_range], ?_⟩
  have climbs := @merkleLoop_branch B _ label index index.log2 0
    fun j above below => hashed j above (by omega)
  simp only [Nat.zero_add, pow_zero, Nat.div_one, div_log2 positive] at climbs
  exact climbs

/-- The first round of the loop starts at the leaf, and its last hash is the root. -/
theorem branchLabel_ends {proof : List B} {leaf root : B} {index : ℕ} (positive : 1 ≤ index)
    (bound : index < 2 ^ 256) (verified : calculateMerkleRoot proof leaf index = .ok root) :
    branchLabel proof leaf index index = leaf ∧ branchLabel proof leaf index 1 = root ∧
      proof.length = index.log2 := by
  obtain ⟨length, climbs⟩ := (calculateMerkleRoot_ok positive bound).mp verified
  refine ⟨?_, ?_, length⟩
  · simpa [merkleLoop] using branchLabel_path proof leaf positive (Nat.zero_le _)
  · rw [← div_log2 positive, branchLabel_path proof leaf positive le_rfl, ← length, List.take_length, climbs]

/-- The final map of a multiproof holds a branch for each listed node. -/
theorem branch_of_multiproof {proof : List B} {root : B} {final : HashMap B} {pairs : List (ℕ × B)}
    (bounds : ∀ pair ∈ pairs, 1 ≤ pair.1 ∧ pair.1 < 2 ^ 256) (distinct : (pairs.map Prod.fst).Nodup)
    (free : PrefixFree (pairs.map Prod.fst))
    (verified : calculateMultiMerkleRoot proof (pairs.map Prod.snd) (pairs.map Prod.fst) .empty = .ok (root, final))
    {pair : ℕ × B} (member : pair ∈ pairs) :
    calculateMerkleRoot (branch final.value pair.1) pair.2 pair.1 = .ok root := by
  obtain ⟨helpers, built, completes⟩ := getHelperIndices_ok (pairs.map Prod.fst)
  obtain ⟨leafCount, proofCount, ran, top⟩ := (calculateMultiMerkleRoot_ok built).mp verified
  have listed : pair.1 ∈ pairs.map Prod.fst := List.mem_map_of_mem member
  obtain ⟨positive, bound⟩ := bounds pair member
  have kept := ((hashKeys_extends ran).kept pair.1 ((supply_flag leafCount proofCount).mpr (.inr (.inr listed)))).2
  have leaf : pair.2 = final.value pair.1 := by
    have values := setAll_values (setAll helpers proof .empty) distinct leafCount
    rw [List.map_map] at values
    rw [kept]
    exact List.map_inj_left.mp values pair member
  rw [leaf, ← top]
  apply calculateMerkleRoot_branch positive bound
  intro height above below
  have proper : pair.1 / 2 ^ height ≠ pair.1 :=
    (Nat.div_lt_self positive (Nat.one_lt_two_pow above.ne')).ne
  have present : 1 ≤ pair.1 / 2 ^ height := by
    rw [Nat.one_le_div_iff (Nat.two_pow_pos height)]
    exact (Nat.le_log2 (by omega)).mp below
  exact interior_hashed completes leafCount proofCount ran present ⟨pair.1, listed, height, rfl⟩
    (free.unlisted ⟨pair.1, listed, .refl _⟩ ⟨height, rfl⟩ proper)

/-- A multiproof reaches a root with the given nodes exactly when each of the nodes has a branch that reaches it. -/
theorem multiproof_iff_branches [CollisionFree B] {pairs : List (ℕ × B)} (nonempty : pairs ≠ [])
    (bounds : ∀ pair ∈ pairs, 1 ≤ pair.1 ∧ pair.1 < 2 ^ 256) (distinct : (pairs.map Prod.fst).Nodup)
    (free : PrefixFree (pairs.map Prod.fst)) (root : B) :
    (∃ proof final, calculateMultiMerkleRoot proof (pairs.map Prod.snd) (pairs.map Prod.fst) .empty =
        .ok (root, final)) ↔
      ∀ pair ∈ pairs, ∃ proof, calculateMerkleRoot proof pair.2 pair.1 = .ok root := by
  constructor
  · rintro ⟨proof, final, verified⟩ pair member
    exact ⟨_, branch_of_multiproof bounds distinct free verified member⟩
  intro branches
  choose proofs verifies using branches
  have ends (pair : {pair // pair ∈ pairs}) := branchLabel_ends (bounds _ pair.2).1 (bounds _ pair.2).2
    (verifies _ pair.2)
  have bundle : Bundle sha256 root (fun pair : {pair // pair ∈ pairs} => pair.1.1)
      (fun pair => branchLabel (proofs _ pair.2) pair.1.2 pair.1.1) := by
    refine ⟨fun pair => (ends pair).2.1, ?_⟩
    intro pair k present above proper
    exact branchLabel_hashed _ (bounds _ pair.2).1 (ends pair).2.2 present
      ⟨pair.1.1, List.mem_singleton_self _, above, proper⟩
  obtain ⟨label, same, hashed⟩ := bundle.glue CollisionFree.sha256_injective
  obtain ⟨first, member⟩ := List.exists_mem_of_ne_nil pairs nonempty
  have leaves : (pairs.map Prod.fst).map label = pairs.map Prod.snd := by
    rw [List.map_map]
    apply List.map_congr_left
    intro pair listed
    exact (same ⟨pair, listed⟩ _ (.of_above (bounds pair listed).1 (.refl _))).trans (ends ⟨pair, listed⟩).1
  have top : label 1 = root := (same ⟨first, member⟩ 1 (.inl rfl)).trans (bundle.root_eq ⟨first, member⟩)
  obtain ⟨helpers, built, completes⟩ := getHelperIndices_ok (pairs.map Prod.fst)
  obtain ⟨final, computed⟩ := calculateMultiMerkleRoot_labels label built completes (by
    rintro k present ⟨index, listed, above, proper⟩
    obtain ⟨pair, inside, rfl⟩ := List.mem_map.mp listed
    exact hashed ⟨pair, inside⟩ k present above proper) ⟨first.1, List.mem_map_of_mem member, (bounds first member).1⟩
  rw [leaves, top] at computed
  exact ⟨_, final, computed⟩

/-- The multiproof of the nodes 4, 10 and 6 gives a branch for the node 10. -/
theorem three_nodes_branch :
    ∃ proof, calculateMerkleRoot proof (.node 10 : NodeString BitVec.toNat) 10 = .ok (.node 1) := by
  have free : CollisionFree (NodeString BitVec.toNat) :=
    NodeString.collisionFree fun _ _ same => BitVec.eq_of_toNat_eq same
  have branches := @multiproof_iff_branches (NodeString BitVec.toNat) _ _
    [(4, .node 4), (10, .node 10), (6, .node 6)] nofun (by decide) (by decide) (by decide) (.node 1)
  exact branches.mp ⟨[.node 11, .node 7], _, rfl⟩ (10, .node 10) (by simp)

end Branches

end SmoothlyPool.Merkle
