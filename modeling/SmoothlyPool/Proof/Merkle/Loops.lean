import SmoothlyPool.Construction.Loops
import SmoothlyPool.Proof.Merkle.HelperIndices

namespace SmoothlyPool.Loops

open Bytes32 Checked IndexLoop

section Access

variable {α : Type} {array : List α} {i : ℕ}

theorem load_ok (inside : i < array.length) : load array i = .ok array[i] := by
  rw [load, List.getElem?_eq_getElem inside]

theorem store_ok {item : α} (inside : i < array.length) : store array i item = .ok (array.set i item) := by
  rw [store, require, if_pos inside, ok_bind]

theorem lastIndex_concat (array : List α) (item : α) : lastIndex (array ++ [item]) = .ok array.length :=
  sub_eq_ok.mpr ⟨by simp, by simp⟩

theorem load_concat (array : List α) (item : α) : load (array ++ [item]) array.length = .ok item := by
  rw [load_ok (by simp)]
  simp

end Access

section Copies

/-- The loop overwrites the items of the target from the offset on. -/
theorem copy_ok {arr tmp : List ℕ} {offset count : ℕ} (enough : count ≤ arr.length)
    (room : offset + count ≤ tmp.length) :
    copy arr offset count tmp = .ok (tmp.take offset ++ arr.take count ++ tmp.drop (offset + count)) := by
  have keeps (i : ℕ) (state : List ℕ) (_ : 0 ≤ i) (high : i < 0 + count)
      (held : state = tmp.take offset ++ arr.take i ++ tmp.drop (offset + i)) :
      ∃ next, (do store state (offset + i) (← load arr i)) = .ok next ∧
        next = tmp.take offset ++ arr.take (i + 1) ++ tmp.drop (offset + (i + 1)) := by
    subst held
    have source : i < arr.length := by omega
    have target : offset + i < tmp.length := by omega
    have front : (tmp.take offset ++ arr.take i).length = offset + i := by
      rw [List.length_append, List.length_take, List.length_take]
      omega
    refine ⟨_, by rw [load_ok source, ok_bind, store_ok (by simp; omega)], ?_⟩
    rw [List.set_append_right _ _ (by omega), front, Nat.sub_self, List.drop_eq_getElem_cons target,
      List.set_cons_zero, ← List.take_concat_get' _ _ source]
    simp only [List.append_assoc, List.singleton_append, Nat.add_assoc]
  have starts : tmp = tmp.take offset ++ arr.take 0 ++ tmp.drop (offset + 0) := by simp
  obtain ⟨result, runs, rfl⟩ := run_invariant _ keeps starts
  rw [copy, runs, Nat.zero_add]

theorem concat_ok (arr1 arr2 : List ℕ) : concat arr1 arr2 = .ok (Arrays.concat arr1 arr2) := by
  rw [concat, copy_ok le_rfl (by simp), ok_bind, copy_ok le_rfl (by simp)]
  simp [Arrays.concat]

theorem push_ok (arr : List ℕ) (item : ℕ) : push arr item = .ok (Arrays.push arr item) := by
  have copied : copy arr 0 arr.length (List.replicate (arr.length + 1) 0) = .ok (arr ++ [0]) := by
    rw [copy_ok le_rfl (by simp)]
    simp
  rw [push, copied, ok_bind, lastIndex_concat, ok_bind, store_ok (by simp)]
  simp [Arrays.push]

theorem pop_ok (arr : List ℕ) : pop arr = (Arrays.pop arr).mapError .revert := by
  rcases arr.eq_nil_or_concat' with rfl | ⟨front, item, rfl⟩
  · rfl
  · have some : 0 < (front ++ [item]).length := by simp
    rw [pop, Arrays.pop, require, require, if_pos some, if_pos some, ok_bind, ok_bind, lastIndex_concat, ok_bind,
      copy_ok (by simp) (by simp)]
    simp [Except.mapError]

end Copies

section Difference

theorem search_ok (arr : List ℕ) (item : ℕ) {count x : ℕ} (dup : Bool) (ends : x + count = arr.length) :
    search arr item count x dup = .ok (dup || (arr.drop x).contains item) := by
  induction count generalizing x with
  | zero =>
      rw [search, List.drop_of_length_le (by omega)]
      simp
  | succ count ih =>
      have inside : x < arr.length := by omega
      rw [search, load_ok inside, ok_bind, List.drop_eq_getElem_cons inside, List.contains_cons]
      by_cases same : item = arr[x]
      · rw [if_pos same]
        simp [same]
      · rw [if_neg same, ih (by omega), beq_false_of_ne same, Bool.false_or]

theorem difference_ok (arr1 arr2 : List ℕ) : difference arr1 arr2 = .ok (Arrays.difference arr1 arr2) := by
  have keeps (i : ℕ) (tmp : List ℕ) (_ : 0 ≤ i) (high : i < 0 + arr1.length)
      (held : tmp ++ Arrays.difference (arr1.drop i) arr2 = Arrays.difference arr1 arr2) :
      ∃ next, (do
        let item ← load arr1 i
        let dup ← search arr2 item arr2.length 0 false
        let dup ← search arr1 item (arr1.length - (i + 1)) (i + 1) dup
        if !dup then push tmp item else .ok tmp) = .ok next ∧
      next ++ Arrays.difference (arr1.drop (i + 1)) arr2 = Arrays.difference arr1 arr2 := by
    have inside : i < arr1.length := by omega
    have rest : i + 1 + (arr1.length - (i + 1)) = arr1.length := by omega
    rw [List.drop_eq_getElem_cons inside, Arrays.difference] at held
    rw [load_ok inside, ok_bind, search_ok arr2 arr1[i] false (Nat.zero_add _), ok_bind,
      search_ok arr1 arr1[i] _ rest, ok_bind, List.drop_zero, Bool.false_or]
    by_cases dup : (arr2.contains arr1[i] || (arr1.drop (i + 1)).contains arr1[i]) = true
    · rw [if_pos dup] at held
      exact ⟨tmp, by rw [dup]; rfl, held⟩
    · rw [if_neg dup] at held
      refine ⟨Arrays.push tmp arr1[i], ?_, ?_⟩
      · rw [if_pos (by simpa using dup), push_ok]
      · rw [Arrays.push, List.append_assoc]
        exact held
  have starts : [] ++ Arrays.difference (arr1.drop 0) arr2 = Arrays.difference arr1 arr2 := rfl
  obtain ⟨result, runs, final⟩ := run_invariant _ keeps starts
  rw [Nat.zero_add, List.drop_length, Arrays.difference, List.append_nil] at final
  rw [difference, runs, final]

end Difference

section Helpers

open Merkle

/-- The item of the node `k` is the last one, and the loop goes on while the node is not the root. -/
theorem climb_ok (next item : ℕ → ℕ) (advances : ∀ k, next (item k) = item (k / 2))
    (stops : ∀ k, 1 < item k ↔ 2 ≤ k) (fuel k : ℕ) (front : List ℕ) (enough : k.log2 ≤ fuel) :
    climb next (fuel + 1) (front ++ [item k]) = .ok (Merkle.climb next fuel (front ++ [item k])) := by
  have last (k : ℕ) (front : List ℕ) : (front ++ [item k]).getLastD 0 = item k := by simp
  induction fuel generalizing k front with
  | zero =>
      have small := le_one_of_log2 enough
      have stopped : ¬ 1 < item k := fun more => absurd ((stops k).mp more) (by omega)
      rw [climb, lastIndex_concat, ok_bind, load_concat, ok_bind, if_neg stopped, Merkle.climb]
  | succ fuel ih =>
      rw [climb, lastIndex_concat, ok_bind, load_concat, ok_bind, Merkle.climb, last]
      by_cases more : 1 < item k
      · rw [if_pos more, if_pos more, push_ok, ok_bind, advances]
        exact ih (k / 2) (front ++ [item k]) (log2_half_le enough)
      · rw [if_neg more, if_neg more]

theorem getPathIndices_ok (index : ℕ) : getPathIndices index = (Merkle.getPathIndices index).mapError .revert := by
  have climbed := climb_ok generalizedIndexParent id (fun _ => rfl) (fun _ => Iff.rfl) index.log2 index [] le_rfl
  rw [getPathIndices, store_ok (by simp), ok_bind, Merkle.getPathIndices, ← pop_ok]
  exact congrArg (· >>= pop) climbed

theorem getBranchIndices_ok (index : ℕ) :
    getBranchIndices index = (Merkle.getBranchIndices index).mapError .revert := by
  have climbed := climb_ok (fun last => generalizedIndexSibling (generalizedIndexParent last))
    generalizedIndexSibling (fun k => by simp only [generalizedIndexSibling, generalizedIndexParent, GIndex.sibling_div_two])
    (fun k => GIndex.two_le_sibling) index.log2 index [] le_rfl
  rw [getBranchIndices, store_ok (by simp), ok_bind, Merkle.getBranchIndices, ← pop_ok]
  exact congrArg (· >>= pop) climbed

/-- The loop over the indices fails like the climbs. -/
theorem collect_foldlM (indices allHelperIndices allPathIndices : List ℕ) :
    indices.foldlM collect (allHelperIndices, allPathIndices) =
      (collectIndices indices allHelperIndices allPathIndices).mapError .revert := by
  induction indices generalizing allHelperIndices allPathIndices with
  | nil => rfl
  | cons index rest ih =>
      rw [List.foldlM_cons, collectIndices, mapError_bind, collect, getBranchIndices_ok, getPathIndices_ok]
      cases Merkle.getBranchIndices index with
      | error reason => rfl
      | ok branch =>
          rw [mapError_ok, ok_bind, ok_bind, concat_ok, ok_bind, mapError_bind]
          cases Merkle.getPathIndices index with
          | error reason => rfl
          | ok path =>
              rw [mapError_ok, ok_bind, ok_bind, concat_ok, ok_bind, ok_bind]
              exact ih _ _

theorem getHelperIndices_ok (indices : List ℕ) :
    getHelperIndices indices = (Merkle.getHelperIndices indices).mapError .revert := by
  have reads (i : ℕ) (inside : i < indices.length) (state : List ℕ × List ℕ) :
      (do collect state (← load indices i)) = collect state indices[i] := by rw [load_ok inside, ok_bind]
  rw [getHelperIndices, run_foldlM collect reads, collect_foldlM, Merkle.getHelperIndices, mapError_bind]
  simp only [difference_ok, ok_bind, mapError_ok]

end Helpers

section Roots

variable {B : Type}

/-- The arrays have one length, so the loop over the keys stays in the values. -/
theorem setAll_ok {keys : List ℕ} {values : List B} (length : values.length = keys.length) (map : HashMap B) :
    setAll keys values map = .ok (Merkle.setAll keys values map) := by
  have reads (i : ℕ) (inside : i < (keys.zip values).length) (map : HashMap B) :
      (do .ok (map.set (← load keys i) (← load values i)) : Except Halt (HashMap B)) =
        .ok (map.set (keys.zip values)[i].1 (keys.zip values)[i].2) := by
    rw [List.length_zip] at inside
    rw [load_ok (by omega), load_ok (by omega), List.getElem_zip]
    rfl
  have count : (keys.zip values).length = keys.length := by rw [List.length_zip, length, min_self]
  rw [setAll, ← count, run_foldlM (fun map pair => .ok (map.set pair.1 pair.2)) reads]
  clear reads count
  induction keys generalizing values map with
  | nil => rfl
  | cons key keys ih =>
      cases values with
      | nil => simp at length
      | cons value values => exact ih (by simpa using length) _

variable [Bytes32 B]

/-- The position of a sibling in its array is the level that it is hashed at. -/
theorem climb_foldlM (index i : ℕ) (proof : List B) (leaf : B) :
    ((proof.zipIdx i).foldlM (fun leaf pair => if 0 < index &&& (1 <<< pair.2) then .ok (sha256 pair.1 leaf)
      else .ok (sha256 leaf pair.1)) leaf : Except Halt B) = .ok (Merkle.merkleLoop index i proof leaf) := by
  induction proof generalizing i leaf with
  | nil => rfl
  | cons sibling rest ih =>
      rw [List.zipIdx_cons, List.foldlM_cons, Merkle.merkleLoop]
      split_ifs <;> exact ih _ _

theorem calculateMerkleRoot_ok (proof : List B) (leaf : B) (index : ℕ) :
    calculateMerkleRoot proof leaf index = (Merkle.calculateMerkleRoot proof leaf index).mapError .revert := by
  have reads (i : ℕ) (inside : i < proof.zipIdx.length) (leaf : B) :
      (do
        let sibling ← load proof i
        if 0 < index &&& (1 <<< i) then .ok (sha256 sibling leaf) else .ok (sha256 leaf sibling) : Except Halt B) =
        if 0 < index &&& (1 <<< proof.zipIdx[i].2) then .ok (sha256 proof.zipIdx[i].1 leaf)
        else .ok (sha256 leaf proof.zipIdx[i].1) := by
    rw [List.length_zipIdx] at inside
    rw [load_ok inside, ok_bind, List.getElem_zipIdx, Nat.zero_add]
  have loop := run_foldlM (fun (leaf : B) (pair : B × ℕ) => if 0 < index &&& (1 <<< pair.2) then
    .ok (sha256 pair.1 leaf) else .ok (sha256 leaf pair.1)) reads leaf
  rw [climb_foldlM, List.length_zipIdx] at loop
  simp only [calculateMerkleRoot, Merkle.calculateMerkleRoot, mapError_bind, mapError_require, loop, mapError_ok]

/-- The loop reads the keys from `pos` on, and each new key is appended to them. -/
theorem scan_ok (fuel : ℕ) (keys : List ℕ) (pos : ℕ) (map : HashMap B) :
    scan (fuel + 1) keys pos map = (Merkle.hashKeys fuel (keys.drop pos) map).mapError .revert := by
  induction fuel generalizing keys pos map with
  | zero =>
      by_cases inside : pos < keys.length
      · rw [scan, if_pos inside, load_ok inside, ok_bind, List.drop_eq_getElem_cons inside, Merkle.hashKeys]
        split_ifs
        · rw [push_ok]
          rfl
        · rfl
      · rw [scan, if_neg inside, List.drop_of_length_le (by omega), Merkle.hashKeys]
        rfl
  | succ fuel ih =>
      by_cases inside : pos < keys.length
      · rw [scan, if_pos inside, load_ok inside, ok_bind, List.drop_eq_getElem_cons inside, Merkle.hashKeys]
        by_cases hashes : Merkle.canHash map keys[pos] = true
        · rw [if_pos hashes, if_pos hashes, push_ok, ok_bind, ih, Arrays.push, Arrays.push,
            List.drop_append_of_le_length (by omega)]
        · rw [if_neg hashes, if_neg hashes, ih]
      · rw [scan, if_neg inside, List.drop_of_length_le (by omega), Merkle.hashKeys]
        rfl

theorem calculateMultiMerkleRoot_ok (proof leaves : List B) (indices : List ℕ) (map : HashMap B) :
    calculateMultiMerkleRoot proof leaves indices map =
      (Merkle.calculateMultiMerkleRoot proof leaves indices map).mapError .revert := by
  rw [calculateMultiMerkleRoot, Merkle.calculateMultiMerkleRoot, mapError_bind, mapError_require,
    getHelperIndices_ok]
  apply bind_congr_ok
  intro _ leafCount
  rw [mapError_bind]
  apply bind_congr_ok
  intro helperIndices _
  rw [mapError_bind, mapError_require]
  apply bind_congr_ok
  intro _ proofCount
  rw [concat_ok, ok_bind, setAll_ok (require_eq_ok.mp proofCount), ok_bind, setAll_ok (require_eq_ok.mp leafCount),
    ok_bind, scan_ok, mapError_bind, List.drop_zero]
  rfl

/-- The loops with checked accesses agree with the functions on lists for all inputs, so no access leaves its array:
the loops over arrays, the climbs and the collection of the helper indices, and the loops of a single proof and of a
multiproof, whatever the transaction has stored before. -/
theorem loops_refine (proof leaves : List B) (leaf : B) (index item : ℕ) (indices others : List ℕ)
    (nodes : List (ℕ × B)) (map : HashMap B) :
    (concat indices others = .ok (Arrays.concat indices others) ∧
      push indices item = .ok (Arrays.push indices item) ∧
      pop indices = (Arrays.pop indices).mapError .revert ∧
      difference indices others = .ok (Arrays.difference indices others)) ∧
    (getPathIndices index = (Merkle.getPathIndices index).mapError .revert ∧
      getBranchIndices index = (Merkle.getBranchIndices index).mapError .revert ∧
      getHelperIndices indices = (Merkle.getHelperIndices indices).mapError .revert) ∧
    setAll (nodes.map Prod.fst) (nodes.map Prod.snd) map =
      .ok (Merkle.setAll (nodes.map Prod.fst) (nodes.map Prod.snd) map) ∧
    (∀ fuel pos, scan (fuel + 1) indices pos map =
      (Merkle.hashKeys fuel (indices.drop pos) map).mapError .revert) ∧
    calculateMerkleRoot proof leaf index = (Merkle.calculateMerkleRoot proof leaf index).mapError .revert ∧
    calculateMultiMerkleRoot proof leaves indices map =
      (Merkle.calculateMultiMerkleRoot proof leaves indices map).mapError .revert := by
  refine ⟨⟨?_, ?_, ?_, ?_⟩, ⟨?_, ?_, ?_⟩, ?_, ?_, ?_, ?_⟩
  · exact concat_ok indices others
  · exact push_ok indices item
  · exact pop_ok indices
  · exact difference_ok indices others
  · exact getPathIndices_ok index
  · exact getBranchIndices_ok index
  · exact getHelperIndices_ok indices
  · exact setAll_ok (by rw [List.length_map, List.length_map]) map
  · exact fun fuel pos => scan_ok fuel indices pos map
  · exact calculateMerkleRoot_ok proof leaf index
  · exact calculateMultiMerkleRoot_ok proof leaves indices map

end Roots

end SmoothlyPool.Loops
