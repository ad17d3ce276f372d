import SmoothlyPool.Construction.Merkle
import SmoothlyPool.Library.GIndex
import SmoothlyPool.Proof.Merkle.Arrays

namespace SmoothlyPool.Merkle

open Checked Arrays GIndex

theorem log2_half_le {k fuel : ℕ} (enough : k.log2 ≤ fuel + 1) : (k / 2).log2 ≤ fuel := by
  by_cases small : k / 2 = 0
  · rw [small]
    exact Nat.zero_le _
  · have low : 2 ^ (k / 2).log2 ≤ k / 2 := Nat.log2_self_le small
    have high : k < 2 ^ (k.log2 + 1) := Nat.lt_log2_self
    have grows : k < 2 ^ (fuel + 2) := high.trans_le (Nat.pow_le_pow_right (by omega) (by omega))
    have bound : 2 ^ (k / 2).log2 < 2 ^ (fuel + 1) := by
      rw [pow_succ] at grows
      omega
    have less := (Nat.pow_lt_pow_iff_right (by omega)).mp bound
    omega

theorem le_one_of_log2 {k : ℕ} (none : k.log2 ≤ 0) : k ≤ 1 := by
  have high : k < 2 ^ (k.log2 + 1) := Nat.lt_log2_self
  rw [Nat.le_zero.mp none] at high
  omega

/-- The loop pushes one item after another, where `item` is read off the current node of the path.
Dropping the last item leaves the items of the nodes below the root. -/
theorem mem_climb (next item : ℕ → ℕ) (advances : ∀ k, next (item k) = item (k / 2))
    (stops : ∀ k, 1 < item k ↔ 2 ≤ k) (fuel k : ℕ) (front : List ℕ) (enough : k.log2 ≤ fuel) (x : ℕ) :
    x ∈ (climb next fuel (front ++ [item k])).dropLast ↔
      x ∈ front ∨ ∃ node, 2 ≤ node ∧ Above node k ∧ item node = x := by
  have last (k : ℕ) (front : List ℕ) : (front ++ [item k]).getLastD 0 = item k := by simp
  have none (k : ℕ) (small : ¬ 2 ≤ k) : ¬ ∃ node, 2 ≤ node ∧ Above node k ∧ item node = x := by
    rintro ⟨node, large, above, _⟩
    have bound := above.le
    omega
  induction fuel generalizing k front with
  | zero =>
      have small := le_one_of_log2 enough
      rw [climb, List.dropLast_concat]
      exact ⟨.inl, fun cases => cases.resolve_right (none k (by omega))⟩
  | succ fuel ih =>
      rw [climb, last]
      by_cases more : 2 ≤ k
      · have later := ih (k / 2) (front ++ [item k]) (log2_half_le enough)
        rw [if_pos ((stops k).mpr more), push, advances, propext later, List.mem_append, List.mem_singleton,
          or_assoc]
        apply or_congr_right
        constructor
        · rintro (rfl | ⟨node, large, above, found⟩)
          · exact ⟨k, more, .refl k, rfl⟩
          · exact ⟨node, large, above.of_parent, found⟩
        · rintro ⟨node, large, above, found⟩
          rcases above_iff_parent.mp above with rfl | higher
          · exact .inl found.symm
          · exact .inr ⟨node, large, higher, found⟩
      · rw [if_neg fun more' => more ((stops k).mp more'), List.dropLast_concat]
        exact ⟨.inl, fun cases => cases.resolve_right (none k more)⟩

theorem climb_ne_nil (next : ℕ → ℕ) (fuel : ℕ) (o : List ℕ) (nonempty : o ≠ []) : climb next fuel o ≠ [] := by
  induction fuel generalizing o with
  | zero => exact nonempty
  | succ fuel ih =>
      rw [climb]
      split_ifs
      · exact ih _ (by simp [push])
      · exact nonempty

/-- The climb from an index reaches the nodes above it, without the root. -/
theorem mem_path {fuel index : ℕ} (enough : index.log2 ≤ fuel) {x : ℕ} :
    x ∈ (climb generalizedIndexParent fuel [index]).dropLast ↔ 2 ≤ x ∧ Above x index := by
  have climbed := mem_climb generalizedIndexParent id (fun _ => rfl) (fun _ => Iff.rfl) fuel index [] enough x
  simpa using climbed

/-- The climb from the sibling of an index reaches the siblings of the path. -/
theorem mem_branch {fuel index : ℕ} (enough : index.log2 ≤ fuel) {x : ℕ} :
    x ∈ (climb (fun last => generalizedIndexSibling (generalizedIndexParent last)) fuel
      [generalizedIndexSibling index]).dropLast ↔ 2 ≤ x ∧ Above (x ^^^ 1) index := by
  have climbed := mem_climb (fun last => generalizedIndexSibling (generalizedIndexParent last))
    generalizedIndexSibling
    (fun k => by simp only [generalizedIndexSibling, generalizedIndexParent, sibling_div_two])
    (fun k => two_le_sibling) fuel index [] enough x
  rw [List.nil_append] at climbed
  rw [climbed]
  constructor
  · rintro (absent | ⟨node, large, above, rfl⟩)
    · exact absurd absent List.not_mem_nil
    · rw [generalizedIndexSibling, sibling_sibling]
      exact ⟨two_le_sibling.mpr large, above⟩
  · rintro ⟨large, above⟩
    exact .inr ⟨x ^^^ 1, two_le_sibling.mpr large, above, sibling_sibling x⟩

theorem pop_ok {arr : List ℕ} (nonempty : arr ≠ []) : pop arr = .ok arr.dropLast :=
  bind_of_ok (require_ok (List.length_pos_of_ne_nil nonempty)) rfl

/-- The path holds the nodes above the index, without the root. -/
theorem getPathIndices_ok (index : ℕ) :
    ∃ path, getPathIndices index = .ok path ∧ ∀ x, x ∈ path ↔ 2 ≤ x ∧ Above x index :=
  ⟨_, pop_ok (climb_ne_nil _ _ _ (by simp)), fun _ => mem_path le_rfl⟩

/-- The branch holds the siblings of the path. -/
theorem getBranchIndices_ok (index : ℕ) :
    ∃ branch, getBranchIndices index = .ok branch ∧ ∀ x, x ∈ branch ↔ 2 ≤ x ∧ Above (x ^^^ 1) index :=
  ⟨_, pop_ok (climb_ne_nil _ _ _ (by simp)), fun _ => mem_branch le_rfl⟩

/-- A node is on a path when it lies above one of the indices. -/
def OnPath (indices : List ℕ) (x : ℕ) : Prop := ∃ index ∈ indices, Above x index

/-- The nodes above a node of a path are on the path. -/
theorem OnPath.of_above {indices : List ℕ} {a k : ℕ} (onPath : OnPath indices k) (above : Above a k) :
    OnPath indices a := by
  obtain ⟨index, listed, below⟩ := onPath
  exact ⟨index, listed, above.trans below⟩

theorem collectIndices_ok (indices allHelperIndices allPathIndices : List ℕ) :
    ∃ helpers paths, collectIndices indices allHelperIndices allPathIndices = .ok (helpers, paths) ∧
      (∀ x, x ∈ helpers ↔ x ∈ allHelperIndices ∨ 2 ≤ x ∧ OnPath indices (x ^^^ 1)) ∧
      ∀ x, x ∈ paths ↔ x ∈ allPathIndices ∨ 2 ≤ x ∧ OnPath indices x := by
  induction indices generalizing allHelperIndices allPathIndices with
  | nil => exact ⟨_, _, rfl, by simp [OnPath], by simp [OnPath]⟩
  | cons index rest ih =>
      obtain ⟨branch, branches, inBranch⟩ := getBranchIndices_ok index
      obtain ⟨path, climbs, inPath⟩ := getPathIndices_ok index
      obtain ⟨helpers, paths, collected, inHelpers, inPaths⟩ :=
        ih (concat allHelperIndices branch) (concat allPathIndices path)
      refine ⟨helpers, paths, bind_of_ok branches (bind_of_ok climbs collected), ?_, ?_⟩
      · intro x
        simp only [inHelpers, concat, List.mem_append, inBranch, OnPath, List.exists_mem_cons_iff]
        tauto
      · intro x
        simp only [inPaths, concat, List.mem_append, inPath, OnPath, List.exists_mem_cons_iff]
        tauto

/-- The helper indices are the siblings of the paths that are not on a path themselves. -/
theorem getHelperIndices_ok (indices : List ℕ) :
    ∃ helpers, getHelperIndices indices = .ok helpers ∧
      ∀ x, x ∈ helpers ↔ 2 ≤ x ∧ OnPath indices (x ^^^ 1) ∧ ¬ OnPath indices x := by
  obtain ⟨helpers, paths, collected, inHelpers, inPaths⟩ := collectIndices_ok indices [] []
  refine ⟨_, bind_of_ok collected rfl, ?_⟩
  intro x
  rw [mem_sortReverse, mem_difference, inHelpers, inPaths]
  simp only [List.not_mem_nil, false_or]
  tauto

end SmoothlyPool.Merkle
