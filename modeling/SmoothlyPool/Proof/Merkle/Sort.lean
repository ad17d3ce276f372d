import SmoothlyPool.Proof.Merkle.Arrays

namespace SmoothlyPool.Arrays

variable {comp : ℕ → ℕ → Bool}

/-- A swap exchanges two cells. -/
theorem mload_swap {array : List ℕ} {ptr1 ptr2 : ℕ} (first : ptr1 < array.length) (second : ptr2 < array.length)
    (k : ℕ) : mload (swap array ptr1 ptr2) k =
      if k = ptr2 then mload array ptr1 else if k = ptr1 then mload array ptr2 else mload array k := by
  simp only [swap, mload, List.getD_eq_getElem?_getD, List.getElem?_set]
  by_cases isSecond : ptr2 = k
  · subst isSecond
    simp [second]
  · rw [if_neg isSecond, if_neg (Ne.symm isSecond)]
    by_cases isFirst : ptr1 = k
    · subst isFirst
      simp [first]
    · rw [if_neg isFirst, if_neg (Ne.symm isFirst)]

/-- Every cell of a segment has the property. -/
def Within (holds : ℕ → Prop) (start finish : ℕ) (array : List ℕ) : Prop :=
  ∀ k, start ≤ k → k < finish → holds (mload array k)

/-- The cells outside a segment are the same. -/
def SameOutside (start finish : ℕ) (array result : List ℕ) : Prop :=
  ∀ k, k < start ∨ finish ≤ k → mload result k = mload array k

/-- The result rearranges the segment: it keeps the cells outside and every property of all cells inside. -/
structure Rearranges (start finish : ℕ) (array result : List ℕ) : Prop where
  length : result.length = array.length
  outside : SameOutside start finish array result
  inside : ∀ holds, Within holds start finish array → Within holds start finish result

theorem Rearranges.refl (start finish : ℕ) (array : List ℕ) : Rearranges start finish array array :=
  ⟨rfl, fun _ _ => rfl, fun _ within => within⟩

theorem Rearranges.trans {start finish : ℕ} {first second third : List ℕ}
    (earlier : Rearranges start finish first second) (later : Rearranges start finish second third) :
    Rearranges start finish first third where
  length := later.length.trans earlier.length
  outside k apart := (later.outside k apart).trans (earlier.outside k apart)
  inside holds within := later.inside holds (earlier.inside holds within)

/-- A rearranged part rearranges the whole. -/
theorem Rearranges.widen {start finish lower upper : ℕ} {array result : List ℕ}
    (rearranges : Rearranges lower upper array result) (above : start ≤ lower) (below : upper ≤ finish) :
    Rearranges start finish array result where
  length := rearranges.length
  outside k apart := rearranges.outside k (by omega)
  inside holds within := by
    intro k low high
    by_cases part : lower ≤ k ∧ k < upper
    · exact rearranges.inside holds (fun j above below => within j (by omega) (by omega)) k part.1 part.2
    · rw [rearranges.outside k (by omega)]
      exact within k low high

theorem swap_rearranges {start finish ptr1 ptr2 : ℕ} {array : List ℕ} (first : start ≤ ptr1 ∧ ptr1 < finish)
    (second : start ≤ ptr2 ∧ ptr2 < finish) (bound : finish ≤ array.length) :
    Rearranges start finish array (swap array ptr1 ptr2) := by
  have cells := @mload_swap array ptr1 ptr2 (by omega) (by omega)
  refine ⟨(swap_perm (by omega) (by omega)).length_eq, ?_, ?_⟩
  · intro k apart
    rw [cells, if_neg (by omega), if_neg (by omega)]
  · intro holds within k low high
    rw [cells]
    split_ifs
    · exact within ptr1 first.1 first.2
    · exact within ptr2 second.1 second.2
    · exact within k low high

/-- The cells up to `pos` come before the pivot, and the cells from there to the iterator do not. -/
structure Partitioned (comp : ℕ → ℕ → Bool) (pivot start pos it : ℕ) (array : List ℕ) : Prop where
  first : mload array start = pivot
  before : ∀ k, start < k → k ≤ pos → comp (mload array k) pivot = true
  after : ∀ k, pos < k → k < it → comp (mload array k) pivot = false

/-- The loop keeps the partition while its iterator moves to the end. -/
theorem partitionLoop_partitioned {pivot start : ℕ} (remaining : ℕ) {it pos : ℕ} {array : List ℕ}
    (low : start ≤ pos) (behind : pos < it) (bound : it + remaining ≤ array.length)
    (partitioned : Partitioned comp pivot start pos it array) :
    start ≤ (partitionLoop comp pivot remaining it pos array).1 ∧
    Partitioned comp pivot start (partitionLoop comp pivot remaining it pos array).1 (it + remaining)
      (partitionLoop comp pivot remaining it pos array).2 ∧
    Rearranges start (it + remaining) array (partitionLoop comp pivot remaining it pos array).2 := by
  induction remaining generalizing it pos array with
  | zero => exact ⟨low, partitioned, .refl start it array⟩
  | succ remaining ih =>
      obtain ⟨first, before, after⟩ := partitioned
      have next : it + 1 + remaining = it + (remaining + 1) := by omega
      rw [partitionLoop]
      by_cases comes : comp (mload array it) pivot = true
      · have cells := @mload_swap array (pos + 1) it (by omega) (by omega)
        have swapped := @swap_rearranges start (it + (remaining + 1)) (pos + 1) it array ⟨by omega, by omega⟩
          ⟨by omega, by omega⟩ bound
        have moved : Partitioned comp pivot start (pos + 1) (it + 1) (swap array (pos + 1) it) := by
          refine ⟨?_, ?_, ?_⟩
          · rw [cells, if_neg (by omega), if_neg (by omega)]
            exact first
          · intro k lower upper
            rw [cells]
            split_ifs with atIterator atNext
            · rwa [← show it = pos + 1 by omega]
            · exact comes
            · exact before k lower (by omega)
          · intro k lower upper
            rw [cells]
            split_ifs with atIterator atNext
            · exact after (pos + 1) (by omega) (by omega)
            · omega
            · exact after k (by omega) (by omega)
        rw [if_pos comes]
        obtain ⟨above, parted, rearranged⟩ :=
          ih (by omega) (by omega) (by rw [swapped.length]; omega) moved
        rw [next] at parted rearranged
        exact ⟨by omega, parted, swapped.trans rearranged⟩
      · have advanced : Partitioned comp pivot start pos (it + 1) array := by
          refine ⟨first, before, ?_⟩
          intro k lower upper
          by_cases last : k = it
          · rw [last]
            exact Bool.eq_false_of_not_eq_true comes
          · exact after k lower (by omega)
        rw [if_neg comes]
        obtain ⟨above, parted, rearranged⟩ := ih low (by omega) (by omega) advanced
        rw [next] at parted rearranged
        exact ⟨above, parted, rearranged⟩

/-- The partition of a segment ends with the pivot position inside it. -/
theorem partition_ok (comp : ℕ → ℕ → Bool) {start finish : ℕ} {array : List ℕ} (long : ¬ finish - start < 2)
    (bound : finish ≤ array.length) :
    ∃ pos parted,
      partitionLoop comp (mload array start) (finish - start - 1) (start + 1) start array = (pos, parted) ∧
      start ≤ pos ∧ pos < finish ∧ Partitioned comp (mload array start) start pos finish parted ∧
      Rearranges start finish array parted := by
  have fresh : Partitioned comp (mload array start) start start (start + 1) array :=
    ⟨rfl, fun k above below => by omega, fun k above below => by omega⟩
  obtain ⟨low, partitioned, moved⟩ := partitionLoop_partitioned (finish - start - 1) le_rfl
    (Nat.lt_succ_self start) (by omega) fresh
  obtain ⟨high, _⟩ := partitionLoop_perm comp (mload array start) (finish - start - 1) (start + 1) start
    array (by omega) (by omega)
  have ends : start + 1 + (finish - start - 1) = finish := by omega
  rw [ends] at partitioned moved high
  exact ⟨_, _, rfl, low, high, partitioned, moved⟩

/-- No later cell of the segment comes before an earlier one. -/
def SortedOn (comp : ℕ → ℕ → Bool) (start finish : ℕ) (array : List ℕ) : Prop :=
  ∀ i j, start ≤ i → i < j → j < finish → comp (mload array j) (mload array i) = false

theorem SortedOn.short {start finish : ℕ} {array : List ℕ} (short : finish - start < 2) :
    SortedOn comp start finish array := by
  intro i j low less high
  omega

/-- The comparator is a strict order whose complement is transitive. -/
structure StrictWeak (comp : ℕ → ℕ → Bool) : Prop where
  asymm : ∀ a b, comp a b = true → comp b a = false
  trans : ∀ a b c, comp b a = false → comp c b = false → comp c a = false

/-- Two sorted parts around the pivot are sorted together. -/
theorem SortedOn.join {start pos finish : ℕ} {array : List ℕ} (weak : StrictWeak comp) (pivot : ℕ)
    (middle : mload array pos = pivot)
    (before : Within (fun x => comp x pivot = true) start pos array)
    (after : Within (fun x => comp x pivot = false) (pos + 1) finish array)
    (lower : SortedOn comp start pos array) (upper : SortedOn comp (pos + 1) finish array) :
    SortedOn comp start finish array := by
  intro i j low less high
  have left (i : ℕ) (low : start ≤ i) (high : i ≤ pos) : comp pivot (mload array i) = false ∨ i = pos := by
    by_cases last : i = pos
    · exact .inr last
    · exact .inl (weak.asymm _ _ (before i low (by omega)))
  rcases Nat.lt_trichotomy j pos with early | rfl | late
  · exact lower i j low less early
  · rw [middle]
    exact (left i low less.le).resolve_right less.ne
  · have behind := after j (by omega) high
    rcases Nat.lt_or_ge pos i with beyond | within
    · exact upper i j (by omega) less high
    · rcases left i low within with ordered | rfl
      · exact weak.trans _ _ _ ordered behind
      · rw [middle]
        exact behind

theorem quickSort_rearranges (fuel start finish : ℕ) (array : List ℕ) (bound : finish ≤ array.length) :
    Rearranges start finish array (quickSort comp fuel start finish array) := by
  induction fuel generalizing start finish array with
  | zero => exact .refl start finish array
  | succ fuel ih =>
      rw [quickSort]
      split_ifs with short
      · exact .refl start finish array
      · obtain ⟨pos, parted, split, low, high, _, moved⟩ := partition_ok comp short bound
        have count := moved.length
        have swapped : Rearranges start finish parted (swap parted start pos) :=
          swap_rearranges ⟨le_rfl, by omega⟩ ⟨low, high⟩ (by omega)
        have lower := ih start pos (swap parted start pos) (by rw [swapped.length]; omega)
        have upper := ih (pos + 1) finish (quickSort comp fuel start pos (swap parted start pos))
          (by rw [lower.length, swapped.length]; omega)
        simp only [split]
        exact ((moved.trans swapped).trans (lower.widen le_rfl high.le)).trans
          (upper.widen (by omega) le_rfl)

/-- Enough fuel sorts the segment. -/
theorem quickSort_sorted (weak : StrictWeak comp) (fuel start finish : ℕ) (array : List ℕ)
    (bound : finish ≤ array.length) (enough : finish - start ≤ fuel) :
    SortedOn comp start finish (quickSort comp fuel start finish array) := by
  induction fuel generalizing start finish array with
  | zero => exact .short (by omega)
  | succ fuel ih =>
      rw [quickSort]
      split_ifs with short
      · exact .short short
      · obtain ⟨pos, parted, split, low, high, ⟨first, before, after⟩, moved⟩ := partition_ok comp short bound
        have count := moved.length
        have cells := @mload_swap parted start pos (by omega) (by omega)
        have size : (swap parted start pos).length = parted.length :=
          (swap_perm (by omega) (by omega)).length_eq
        have smaller : Within (fun x => comp x (mload array start) = true) start pos (swap parted start pos) := by
          intro k above below
          show comp (mload (swap parted start pos) k) (mload array start) = true
          rw [cells, if_neg below.ne]
          split_ifs with atStart
          · exact before pos (by omega) le_rfl
          · exact before k (by omega) below.le
        have larger : Within (fun x => comp x (mload array start) = false) (pos + 1) finish
            (swap parted start pos) := by
          intro k above below
          show comp (mload (swap parted start pos) k) (mload array start) = false
          rw [cells, if_neg (by omega), if_neg (by omega)]
          exact after k (by omega) below
        have middle : mload (swap parted start pos) pos = mload array start := by
          rw [cells, if_pos rfl]
          exact first
        have left : Rearranges start pos (swap parted start pos)
            (quickSort comp fuel start pos (swap parted start pos)) :=
          quickSort_rearranges fuel start pos _ (by omega)
        have right : Rearranges (pos + 1) finish (quickSort comp fuel start pos (swap parted start pos))
            (quickSort comp fuel (pos + 1) finish (quickSort comp fuel start pos (swap parted start pos))) :=
          quickSort_rearranges fuel (pos + 1) finish _ (by rw [left.length]; omega)
        have lower := ih start pos (swap parted start pos) (by omega) (by omega)
        have upper := ih (pos + 1) finish (quickSort comp fuel start pos (swap parted start pos))
          (by rw [left.length]; omega) (by omega)
        simp only [split]
        refine .join weak (mload array start) ?_ ?_ ?_ ?_ upper
        · rw [right.outside pos (by omega), left.outside pos (by omega)]
          exact middle
        · intro k above below
          rw [right.outside k (by omega)]
          exact left.inside _ smaller k above below
        · apply right.inside
          intro k above below
          rw [left.outside k (by omega)]
          exact larger k above below
        · intro i j above less below
          rw [right.outside i (by omega), right.outside j (by omega)]
          exact lower i j above less below

/-- The sort of a whole array puts no item behind one that comes after it. -/
theorem sort_pairwise (weak : StrictWeak comp) (array : List ℕ) :
    (sort array comp).Pairwise fun earlier later => comp later earlier = false := by
  have sorted := quickSort_sorted weak array.length 0 array.length array le_rfl le_rfl
  have size : (sort array comp).length = array.length := (quickSort_perm comp _ 0 _ array le_rfl).length_eq
  rw [List.pairwise_iff_getElem]
  intro i j first second less
  have here : mload (sort array comp) i = (sort array comp)[i] := by simp [mload, first]
  have there : mload (sort array comp) j = (sort array comp)[j] := by simp [mload, second]
  rw [← here, ← there]
  exact sorted i j (Nat.zero_le i) less (by omega)

theorem reverse_strictWeak : StrictWeak reverse where
  asymm a b less := by
    simp only [reverse, decide_eq_true_eq, decide_eq_false_iff_not] at less ⊢
    omega
  trans a b c first second := by
    simp only [reverse, decide_eq_false_iff_not] at first second ⊢
    omega

/-- The reverse sort orders the array from the largest item down. -/
theorem sortReverse_descending (array : List ℕ) : (sortReverse array).Pairwise (· ≥ ·) :=
  (sort_pairwise reverse_strictWeak array).imp fun later => Nat.le_of_not_lt (of_decide_eq_false later)

/-- The difference keeps the last copy of each item. -/
theorem difference_nodup (arr1 arr2 : List ℕ) : (difference arr1 arr2).Nodup := by
  induction arr1 with
  | nil => exact List.nodup_nil
  | cons item rest ih =>
      rw [difference]
      by_cases dup : (arr2.contains item || rest.contains item) = true
      · rw [if_pos dup]
        exact ih
      · rw [if_neg dup, List.nodup_cons]
        refine ⟨?_, ih⟩
        rw [mem_difference]
        simp only [Bool.or_eq_true, List.contains_eq_mem, decide_eq_true_eq, not_or] at dup
        exact fun later => dup.2 later.1

/-- Distinct items come out strictly descending. -/
theorem sortReverse_strict {array : List ℕ} (distinct : array.Nodup) :
    (sortReverse array).Pairwise (· > ·) := by
  have nodup : (sortReverse array).Nodup := (sortReverse_perm array).nodup_iff.mpr distinct
  exact (sortReverse_descending array).imp₂ (fun a b above differs => lt_of_le_of_ne above differs.symm) nodup

end SmoothlyPool.Arrays
