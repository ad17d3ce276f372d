import SmoothlyPool.Construction.Arrays
import Mathlib.Data.List.Perm.Basic
import Mathlib.Tactic

namespace SmoothlyPool.Arrays

/-- Memory accesses of a swap stay inside the array. -/
theorem swap_perm {array : List ℕ} {ptr1 ptr2 : ℕ} (first : ptr1 < array.length)
    (second : ptr2 < array.length) : (swap array ptr1 ptr2).Perm array := by
  have read1 : mload array ptr1 = array[ptr1] := by simp [mload, first]
  have read2 : mload array ptr2 = array[ptr2] := by simp [mload, second]
  simp only [swap, read1, read2]
  exact List.set_set_perm first second

/-- The partition permutes the array, and the pivot position stays behind the iterator. -/
theorem partitionLoop_perm (comp : ℕ → ℕ → Bool) (pivot remaining it pos : ℕ) (array : List ℕ)
    (behind : pos < it) (inside : it + remaining ≤ array.length) :
    (partitionLoop comp pivot remaining it pos array).1 < it + remaining ∧
    (partitionLoop comp pivot remaining it pos array).2.Perm array := by
  induction remaining generalizing it pos array with
  | zero => exact ⟨behind, .refl array⟩
  | succ remaining ih =>
      rw [partitionLoop]
      split_ifs
      · have swapped : (swap array (pos + 1) it).Perm array := swap_perm (by omega) (by omega)
        have length := swapped.length_eq
        obtain ⟨position, permuted⟩ :=
          ih (it + 1) (pos + 1) (swap array (pos + 1) it) (by omega) (by omega)
        exact ⟨by omega, permuted.trans swapped⟩
      · obtain ⟨position, permuted⟩ := ih (it + 1) pos array (by omega) (by omega)
        exact ⟨by omega, permuted⟩

theorem quickSort_perm (comp : ℕ → ℕ → Bool) (fuel start finish : ℕ) (array : List ℕ)
    (inside : finish ≤ array.length) : (quickSort comp fuel start finish array).Perm array := by
  induction fuel generalizing start finish array with
  | zero => exact .refl array
  | succ fuel ih =>
      rw [quickSort]
      split_ifs with short
      · exact .refl array
      · obtain ⟨position, permuted⟩ := partitionLoop_perm comp (mload array start) (finish - start - 1)
          (start + 1) start array (by omega) (by omega)
        generalize split : partitionLoop comp (mload array start) (finish - start - 1) (start + 1) start
          array = partitioned at position permuted
        obtain ⟨pos, moved⟩ := partitioned
        have length : moved.length = array.length := permuted.length_eq
        have position : pos < start + 1 + (finish - start - 1) := position
        have swapped : (swap moved start pos).Perm moved := swap_perm (by omega) (by omega)
        have kept := swapped.length_eq
        have lower := ih start pos (swap moved start pos) (by omega)
        have unchanged := lower.length_eq
        have upper := ih (pos + 1) finish (quickSort comp fuel start pos (swap moved start pos)) (by omega)
        simp only [split]
        exact ((upper.trans lower).trans swapped).trans permuted

theorem sortReverse_perm (array : List ℕ) : (sortReverse array).Perm array :=
  quickSort_perm reverse array.length 0 array.length array le_rfl

@[simp] theorem mem_sortReverse {array : List ℕ} {item : ℕ} : item ∈ sortReverse array ↔ item ∈ array :=
  (sortReverse_perm array).mem_iff

@[simp] theorem mem_difference {arr1 arr2 : List ℕ} {item : ℕ} :
    item ∈ difference arr1 arr2 ↔ item ∈ arr1 ∧ item ∉ arr2 := by
  induction arr1 with
  | nil => simp [difference]
  | cons first rest ih =>
      rw [difference]
      by_cases dropped : first ∈ arr2 ∨ first ∈ rest
      · have dup : (arr2.contains first || rest.contains first) = true := by simpa using dropped
        rw [if_pos dup, ih, List.mem_cons]
        constructor
        · exact fun ⟨later, absent⟩ => ⟨.inr later, absent⟩
        · rintro ⟨rfl | later, absent⟩
          · exact ⟨dropped.resolve_left absent, absent⟩
          · exact ⟨later, absent⟩
      · have kept : ¬ (arr2.contains first || rest.contains first) = true := by simpa using dropped
        rw [if_neg kept, List.mem_cons, List.mem_cons, ih]
        constructor
        · rintro (rfl | ⟨later, absent⟩)
          · exact ⟨.inl rfl, fun member => dropped (.inl member)⟩
          · exact ⟨.inr later, absent⟩
        · rintro ⟨rfl | later, absent⟩
          · exact .inl rfl
          · exact .inr ⟨later, absent⟩

end SmoothlyPool.Arrays
