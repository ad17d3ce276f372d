import SmoothlyPool.Construction.Memory
import SmoothlyPool.Proof.Merkle.Sort
import SmoothlyPool.Proof.Oracle.ValidatorRoot

namespace SmoothlyPool.Memory

/-- This is the address of an item of a segment. -/
def cell (base i : ℕ) : Word := BitVec.ofNat 256 (base + 32 * i)

def items (base count : ℕ) (memory : ℕ → BitVec 8) : List ℕ :=
  (List.range count).map fun i => (mload (cell base i) memory).toNat

/-- The comparator compares words. -/
def onNat (comp : Word → Word → Bool) (a b : ℕ) : Bool := comp (BitVec.ofNat 256 a) (BitVec.ofNat 256 b)

/-- The segment holds the array, and outside it the memory is as it was at first. -/
structure Represents (base count : ℕ) (initial memory : ℕ → BitVec 8) (array : List ℕ) : Prop where
  items_eq : items base count memory = array
  outside : ∀ address, address < base ∨ base + 32 * count ≤ address → memory address = initial address

theorem mload_eq_load (ptr : Word) (memory : ℕ → BitVec 8) :
    mload ptr memory = ByteMemory.load 256 32 memory ptr.toNat := BeaconOracle.mload_eq memory ptr.toNat

section Cells

variable {base count i j : ℕ}

theorem cell_toNat (fits : base + 32 * count < 2 ^ 256) (inside : i ≤ count) :
    (cell base i).toNat = base + 32 * i := by
  rw [cell, BitVec.toNat_ofNat, Nat.mod_eq_of_lt (by omega)]

theorem cell_next (base i : ℕ) : cell base i + 0x20 = cell base (i + 1) := by
  rw [cell, cell, show (0x20 : Word) = BitVec.ofNat 256 32 from rfl, ← BitVec.ofNat_add]
  rfl

theorem cell_lt (fits : base + 32 * count < 2 ^ 256) (first : i ≤ count) (second : j ≤ count) :
    cell base i < cell base j ↔ i < j := by
  rw [BitVec.lt_def, cell_toNat fits first, cell_toNat fits second]
  omega

/-- The distance of two cells tells whether the segment between them has an item besides its pivot. -/
theorem cell_sub_lt (fits : base + 32 * count < 2 ^ 256) (ordered : i ≤ j) (inside : j ≤ count) :
    cell base j - cell base i < 0x40 ↔ j - i < 2 := by
  have distance : (cell base j - cell base i).toNat = 32 * (j - i) := by
    rw [BitVec.toNat_sub_of_le, cell_toNat fits inside, cell_toNat fits (ordered.trans inside)]
    · omega
    · rw [BitVec.le_def, cell_toNat fits inside, cell_toNat fits (ordered.trans inside)]
      omega
  rw [BitVec.lt_def, distance, show (0x40 : Word).toNat = 64 from rfl]
  omega

/-- A store in one cell leaves the other cells alone. -/
theorem mload_mstore (fits : base + 32 * count < 2 ^ 256) (first : i < count) (second : j < count) (value : Word)
    (memory : ℕ → BitVec 8) : mload (cell base j) (mstore (cell base i) value memory) =
      if j = i then value else mload (cell base j) memory := by
  rw [mload_eq_load, mload_eq_load, mstore, cell_toNat fits first.le, cell_toNat fits second.le]
  split_ifs with same
  · rw [same]
    exact @ByteMemory.load_store 256 32 rfl memory _ value
  · exact ByteMemory.load_store_of_disjoint (by omega)

/-- A store in a cell leaves the memory outside the segment alone. -/
theorem mstore_outside (fits : base + 32 * count < 2 ^ 256) (inside : i < count) (value : Word)
    (memory : ℕ → BitVec 8) {address : ℕ} (outside : address < base ∨ base + 32 * count ≤ address) :
    mstore (cell base i) value memory address = memory address := by
  rw [mstore, cell_toNat fits inside.le]
  exact ByteMemory.store_outside memory _ value (by omega)

end Cells

section Steps

variable {base count : ℕ} {initial memory : ℕ → BitVec 8} {array : List ℕ}

theorem Represents.length (represents : Represents base count initial memory array) : array.length = count := by
  rw [← represents.items_eq, items, List.length_map, List.length_range]

theorem Represents.load (represents : Represents base count initial memory array) {i : ℕ} (inside : i < count) :
    (mload (cell base i) memory).toNat = Arrays.mload array i := by
  rw [← represents.items_eq, items, Arrays.mload]
  simp [inside]

theorem Represents.swap (fits : base + 32 * count < 2 ^ 256) {i j : ℕ} (first : i < count) (second : j < count)
    (represents : Represents base count initial memory array) :
    Represents base count initial (swap (cell base i) (cell base j) memory) (Arrays.swap array i j) := by
  have length := represents.length
  constructor
  · apply List.ext_getElem
    · rw [items, List.length_map, List.length_range, (Arrays.swap_perm (by omega) (by omega)).length_eq, length]
    intro k inside bound
    have range : k < count := by simpa [items] using inside
    have cells : (Arrays.swap array i j)[k] = Arrays.mload (Arrays.swap array i j) k := by simp [Arrays.mload, bound]
    rw [cells, Arrays.mload_swap (by omega) (by omega)]
    simp only [items, List.getElem_map, List.getElem_range]
    rw [Memory.swap, mload_mstore fits second range, mload_mstore fits first range]
    split_ifs
    · exact represents.load first
    · exact represents.load second
    · exact represents.load range
  · intro address outside
    rw [Memory.swap, mstore_outside fits second _ _ outside, mstore_outside fits first _ _ outside]
    exact represents.outside address outside

/-- The loop over the memory follows the loop over the list. -/
theorem partitionLoop_represents (comp : Word → Word → Bool) (fits : base + 32 * count < 2 ^ 256) (pivot : Word)
    (remaining : ℕ) {fuel it pos : ℕ} (behind : pos < it) (bound : it + remaining ≤ count)
    (enough : remaining < fuel) (represents : Represents base count initial memory array) :
    ∃ result,
      partitionLoop comp pivot (cell base (it + remaining)) fuel (cell base it) (cell base pos) memory =
        some (cell base (Arrays.partitionLoop (onNat comp) pivot.toNat remaining it pos array).1, result) ∧
      Represents base count initial result
        (Arrays.partitionLoop (onNat comp) pivot.toNat remaining it pos array).2 := by
  obtain ⟨fuel, rfl⟩ := Nat.exists_eq_succ_of_ne_zero (Nat.ne_zero_of_lt enough)
  induction remaining generalizing fuel it pos memory array with
  | zero =>
      rw [partitionLoop, Nat.add_zero, if_neg (BitVec.lt_irrefl _)]
      exact ⟨memory, rfl, represents⟩
  | succ remaining ih =>
      obtain ⟨fuel, rfl⟩ := Nat.exists_eq_succ_of_ne_zero (show fuel ≠ 0 by omega)
      have next : it + 1 + remaining = it + (remaining + 1) := by omega
      have item := represents.load (i := it) (by omega)
      have compares : onNat comp (Arrays.mload array it) pivot.toNat = comp (mload (cell base it) memory) pivot := by
        rw [onNat, ← item, BitVec.ofNat_toNat, BitVec.ofNat_toNat, BitVec.setWidth_eq, BitVec.setWidth_eq]
      rw [partitionLoop, if_pos ((cell_lt fits (by omega) bound).mpr (by omega)), Arrays.partitionLoop, compares,
        cell_next, cell_next, ← next]
      by_cases comes : comp (mload (cell base it) memory) pivot = true
      · rw [if_pos comes, if_pos comes]
        exact ih (by omega) (by omega) (represents.swap fits (by omega) (by omega)) fuel (by omega)
      · rw [if_neg comes, if_neg comes]
        exact ih (by omega) (by omega) represents fuel (by omega)

/-- The sort of a segment in memory follows the sort of the list. -/
theorem quickSort_represents (comp : Word → Word → Bool) (fits : base + 32 * count < 2 ^ 256) (steps : ℕ)
    {fuel start finish : ℕ} (ordered : start ≤ finish) (bound : finish ≤ count) (short : finish - start ≤ steps)
    (enough : finish - start < fuel) (represents : Represents base count initial memory array) :
    ∃ result, quickSort comp fuel (cell base start) (cell base finish) memory = some result ∧
      Represents base count initial result (Arrays.quickSort (onNat comp) steps start finish array) := by
  obtain ⟨fuel, rfl⟩ := Nat.exists_eq_succ_of_ne_zero (Nat.ne_zero_of_lt enough)
  induction steps generalizing fuel start finish memory array with
  | zero =>
      rw [quickSort, if_pos ((cell_sub_lt fits ordered bound).mpr (by omega))]
      exact ⟨memory, rfl, represents⟩
  | succ steps ih =>
      have length := represents.length
      rw [quickSort, Arrays.quickSort]
      by_cases small : finish - start < 2
      · rw [if_pos ((cell_sub_lt fits ordered bound).mpr small), if_pos small]
        exact ⟨memory, rfl, represents⟩
      obtain ⟨pos, parted, split, low, high, _, moved⟩ :=
        Arrays.partition_ok (onNat comp) small (show finish ≤ array.length by omega)
      have within : finish - start - 1 < fuel := by omega
      obtain ⟨_, loops, parts⟩ := partitionLoop_represents comp fits (mload (cell base start) memory)
        (finish - start - 1) (Nat.lt_succ_self start) (by omega) within represents
      rw [represents.load (by omega), split] at loops parts
      have ends : start + 1 + (finish - start - 1) = finish := by omega
      obtain ⟨fuel, rfl⟩ := Nat.exists_eq_succ_of_ne_zero (show fuel ≠ 0 by omega)
      have rest : pos + 1 ≤ finish := high
      obtain ⟨left, sortsLeft, lower⟩ := ih low (by omega) (by omega)
        (parts.swap fits (i := start) (j := pos) (by omega) (by omega)) fuel (by omega)
      obtain ⟨right, sortsRight, upper⟩ := ih rest bound (by omega) lower fuel (by omega)
      rw [if_neg fun word => small ((cell_sub_lt fits ordered bound).mp word), if_neg small]
      rw [ends, ← cell_next] at loops
      rw [← cell_next] at sortsRight
      simp only [loops, split, sortsLeft, sortsRight, Option.bind_eq_bind, Option.bind_some]
      exact ⟨right, rfl, upper⟩

end Steps

/-- These are the items behind the length of an array. -/
def arrayItems (array : Word) (memory : ℕ → BitVec 8) : List ℕ :=
  items (array.toNat + 32) (mload array memory).toNat memory

section Array

variable {array : Word} {memory : ℕ → BitVec 8}

theorem arrayBegin_eq (array : Word) : arrayBegin array = cell (array.toNat + 32) 0 := by
  rw [arrayBegin, cell, Nat.mul_zero, Nat.add_zero, BitVec.ofNat_add, BitVec.ofNat_toNat, BitVec.setWidth_eq]
  rfl

theorem arrayEnd_eq (array : Word) (memory : ℕ → BitVec 8) :
    arrayEnd array memory = cell (array.toNat + 32) (mload array memory).toNat := by
  rw [arrayEnd, arrayBegin, cell, BitVec.ofNat_add, BitVec.ofNat_add, BitVec.ofNat_toNat, BitVec.setWidth_eq,
    Nat.mul_comm, BitVec.ofNat_mul, BitVec.ofNat_toNat, BitVec.setWidth_eq]
  rfl

/-- The memory outside the items holds the length. -/
theorem mload_array_of_outside {result : ℕ → BitVec 8} {count : ℕ}
    (outside : ∀ address, address < array.toNat + 32 ∨ array.toNat + 32 + 32 * count ≤ address →
      result address = memory address) : mload array result = mload array memory := by
  rw [mload_eq_load, mload_eq_load]
  exact ByteMemory.load_congr fun address _ high => outside address (.inl high)

/-- The sort in memory ends, and it sorts the items of its array like the sort of a list.  The items are
rearranged in the order of the comparator, and no other byte of the memory changes. -/
theorem sort_in_place (comp : Word → Word → Bool) (array : Word) (memory : ℕ → BitVec 8)
    (fits : array.toNat + 32 + 32 * (mload array memory).toNat < 2 ^ 256) {fuel : ℕ}
    (enough : (mload array memory).toNat < fuel) :
    ∃ result, sort comp fuel array memory = some result ∧
      arrayItems array result = Arrays.sort (arrayItems array memory) (onNat comp) ∧
      (arrayItems array result).Perm (arrayItems array memory) ∧
      (Arrays.StrictWeak (onNat comp) →
        (arrayItems array result).Pairwise fun earlier later => onNat comp later earlier = false) ∧
      ∀ address, address < array.toNat + 32 ∨ array.toNat + 32 + 32 * (mload array memory).toNat ≤ address →
        result address = memory address := by
  have represents : Represents (array.toNat + 32) (mload array memory).toNat memory memory
      (arrayItems array memory) := ⟨rfl, fun _ _ => rfl⟩
  have length := represents.length
  obtain ⟨result, sorts, items_eq, outside⟩ := quickSort_represents comp fits (mload array memory).toNat
    (Nat.zero_le _) le_rfl le_rfl enough represents
  have after : arrayItems array result = Arrays.sort (arrayItems array memory) (onNat comp) := by
    rw [arrayItems, mload_array_of_outside outside, items_eq, Arrays.sort, length]
  refine ⟨result, ?_, after, ?_, ?_, outside⟩
  · rw [sort, arrayBegin_eq, arrayEnd_eq]
    exact sorts
  · rw [after]
    exact Arrays.quickSort_perm (onNat comp) _ 0 _ _ le_rfl
  · intro weak
    rw [after]
    exact Arrays.sort_pairwise weak _

theorem reverse_strictWeak : Arrays.StrictWeak (onNat reverse) where
  asymm a b less := by
    simp only [onNat, reverse, gt_iff_lt, decide_eq_true_eq, decide_eq_false_iff_not] at less ⊢
    exact BitVec.not_lt.mpr (BitVec.le_of_lt less)
  trans a b c first second := by
    simp only [onNat, reverse, gt_iff_lt, decide_eq_false_iff_not, BitVec.not_lt] at first second ⊢
    exact BitVec.le_trans second first

/-- The array `[5, 9, 7]` at the start of the free memory comes out descending, and its length stays. -/
theorem sort_in_place_three :
    let memory := mstore 0xe0 7 (mstore 0xc0 9 (mstore 0xa0 5 (mstore 0x80 3 fun _ => 0)))
    ∃ result, sortReverse 4 0x80 memory = some result ∧ arrayItems 0x80 result = [9, 7, 5] ∧
      (arrayItems 0x80 result).Perm [5, 9, 7] ∧
      ((arrayItems 0x80 result).Pairwise fun earlier later => onNat reverse later earlier = false) ∧
      ∀ address < 0xa0, result address = memory address := by
  intro memory
  obtain ⟨result, sorts, items_eq, permutes, ordered, outside⟩ :=
    @sort_in_place reverse 0x80 memory (by decide +kernel) 4 (by decide +kernel)
  have before : arrayItems 0x80 memory = [5, 9, 7] := by decide +kernel
  rw [before] at items_eq permutes
  refine ⟨result, sorts, items_eq.trans (by decide +kernel), permutes, ordered reverse_strictWeak, ?_⟩
  exact fun address low => outside address (.inl low)

end Array

end SmoothlyPool.Memory
