import SmoothlyPool.Library.ByteOrder

namespace ByteMemory

open ByteOrder

variable {w count : ℕ}

/-- This is the word of the given number of bytes at an address. -/
def load (w count : ℕ) (memory : ℕ → BitVec 8) (ptr : ℕ) : BitVec w :=
  ofBytes ((List.range count).map fun i => memory (ptr + i))

/-- The bytes of the word replace the bytes at the address. -/
def store (count : ℕ) (memory : ℕ → BitVec 8) (ptr : ℕ) (value : BitVec w) : ℕ → BitVec 8 := fun address =>
  if ptr ≤ address ∧ address < ptr + count then value.extractLsb' (8 * (count - 1 - (address - ptr))) 8
  else memory address

/-- A load depends on its own bytes only. -/
theorem load_congr {memory other : ℕ → BitVec 8} {ptr : ℕ}
    (same : ∀ address, ptr ≤ address → address < ptr + count → memory address = other address) :
    load w count memory ptr = load w count other ptr := by
  rw [load, load]
  congr 1
  apply List.map_congr_left
  intro i member
  exact same (ptr + i) (Nat.le_add_right ptr i) (Nat.add_lt_add_left (List.mem_range.mp member) ptr)

/-- A store leaves the bytes outside its word alone. -/
theorem store_outside (memory : ℕ → BitVec 8) (ptr : ℕ) (value : BitVec w) {address : ℕ}
    (outside : address < ptr ∨ ptr + count ≤ address) : store count memory ptr value address = memory address :=
  if_neg (by omega)

/-- A load from the same address reads the stored word. -/
theorem load_store (width : w = 8 * count) (memory : ℕ → BitVec 8) (ptr : ℕ) (value : BitVec w) :
    load w count (store count memory ptr value) ptr = value := by
  apply BitVec.eq_of_getLsbD_eq
  intro i inside
  have place : i / 8 < count := by omega
  have read : ((List.range count).map fun j => store count memory ptr value (ptr + j)).reverse.getD (i / 8) 0 =
      value.extractLsb' (8 * (i / 8)) 8 := by
    have stored : store count memory ptr value (ptr + (count - 1 - i / 8)) = value.extractLsb' (8 * (i / 8)) 8 := by
      rw [store, if_pos (by omega)]
      congr 2
      omega
    simp [place, stored]
  rw [load, ofBytes_getLsbD _ inside, read, BitVec.getLsbD_extractLsb']
  have digit : 8 * (i / 8) + i % 8 = i := by omega
  simp [Nat.mod_lt, digit]

/-- A load from a disjoint address reads what was there before. -/
theorem load_store_of_disjoint {memory : ℕ → BitVec 8} {ptr other : ℕ} {value : BitVec w}
    (disjoint : other + count ≤ ptr ∨ ptr + count ≤ other) :
    load w count (store count memory ptr value) other = load w count memory other :=
  load_congr fun address low high => store_outside memory ptr value (by omega)

end ByteMemory
