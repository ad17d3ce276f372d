import SmoothlyPool.Construction.Bytes32
import SmoothlyPool.Library.ByteOrder

namespace SmoothlyPool

open ByteOrder

/-- The first byte of a word is its highest one. -/
def byte (v : Word) (j : ℕ) : BitVec 8 := v.extractLsb' (8 * (31 - j)) 8

def bytes (v : Word) : List (BitVec 8) := (List.range 32).map (byte v)

theorem byte_getLsbD (v : Word) (j b : ℕ) (inside : b < 8) :
    (byte v j).getLsbD b = v.getLsbD (8 * (31 - j) + b) := by
  simp [byte, inside]

/-- Each round flips one bit of the position, and the low three bits stay as they are. -/
theorem toLittleEndian_getLsbD (v : Word) {i : ℕ} (inside : i < 256) :
    (toLittleEndian v).getLsbD i = v.getLsbD (i ^^^ 248) := by
  have flip {i m : ℕ} (inside : i < 256) (small : m < 2 ^ 8) : i ^^^ m < 256 := Nat.xor_lt_two_pow inside small
  unfold toLittleEndian
  extract_lets first second third fourth
  have halves := flip inside (show 128 < 2 ^ 8 by decide)
  have quarters := flip halves (show 64 < 2 ^ 8 by decide)
  have eighths := flip quarters (show 32 < 2 ^ 8 by decide)
  have pairs := flip eighths (show 16 < 2 ^ 8 by decide)
  calc (fourth >>> 128 ||| fourth <<< 128).getLsbD i
      = fourth.getLsbD (i ^^^ 128) := halves_getLsbD (k := 7) rfl fourth inside
    _ = third.getLsbD (i ^^^ 128 ^^^ 64) :=
        exchange_getLsbD (k := 6) (by decide +kernel) (by decide +kernel) third halves
    _ = second.getLsbD (i ^^^ 128 ^^^ 64 ^^^ 32) :=
        exchange_getLsbD (k := 5) (by decide +kernel) (by decide +kernel) second quarters
    _ = first.getLsbD (i ^^^ 128 ^^^ 64 ^^^ 32 ^^^ 16) :=
        exchange_getLsbD (k := 4) (by decide +kernel) (by decide +kernel) first eighths
    _ = v.getLsbD (i ^^^ 128 ^^^ 64 ^^^ 32 ^^^ 16 ^^^ 8) :=
        exchange_getLsbD (k := 3) (by decide +kernel) (by decide +kernel) v pairs
    _ = v.getLsbD (i ^^^ 248) := by
        simp only [Nat.xor_assoc]
        rfl

theorem toLittleEndian_involutive : Function.Involutive toLittleEndian := by
  intro v
  apply BitVec.eq_of_getLsbD_eq
  intro i inside
  rw [toLittleEndian_getLsbD _ inside, toLittleEndian_getLsbD _ (Nat.xor_lt_two_pow (n := 8) inside (by decide)),
    Nat.xor_assoc, Nat.xor_self, Nat.xor_zero]

theorem toLittleEndian_injective : Function.Injective toLittleEndian := toLittleEndian_involutive.injective

/-- The position of a bit moves to the mirrored byte. -/
theorem mirrored : ∀ j < 32, ∀ b < 8, (8 * (31 - j) + b) ^^^ 248 = 8 * j + b := by decide +kernel

theorem byte_toLittleEndian (v : Word) {j : ℕ} (inside : j < 32) :
    byte (toLittleEndian v) j = v.extractLsb' (8 * j) 8 := by
  ext b low
  rw [← BitVec.getLsbD_eq_getElem, ← BitVec.getLsbD_eq_getElem, byte_getLsbD _ _ _ low,
    toLittleEndian_getLsbD _ (by omega), mirrored j inside b low]
  simp [low]

/-- A `uint64` value gives its eight bytes with the lowest one first, and then zero bytes. -/
theorem bytes_toLittleEndian {v : Word} (small : v.toNat < 2 ^ 64) : bytes (toLittleEndian v) =
    ((List.range 8).map fun j => BitVec.ofNat 8 (v.toNat / 256 ^ j)) ++ List.replicate 24 0 := by
  apply List.ext_getElem (by simp [bytes])
  intro j inside _
  have range : j < 32 := by simpa [bytes] using inside
  have digit : v.extractLsb' (8 * j) 8 = BitVec.ofNat 8 (v.toNat / 256 ^ j) := by
    rw [BitVec.extractLsb', Nat.shiftRight_eq_div_pow, Nat.pow_mul]
  simp only [bytes, List.getElem_map, List.getElem_range, byte_toLittleEndian v range, digit]
  rw [List.getElem_append]
  by_cases low : j < 8
  · simp [low]
  · have high : v.toNat / 256 ^ j = 0 := by
      apply Nat.div_eq_of_lt
      exact small.trans_le (Nat.pow_le_pow_right (by decide : 0 < 256) (Nat.le_of_not_lt low))
    rw [dif_neg (by simpa using low), List.getElem_replicate, high]
    rfl

/-- The bytes of a word are the word. -/
theorem ofBytes_bytes (v : Word) : ofBytes (bytes v) = v := by
  apply BitVec.eq_of_getLsbD_eq
  intro i inside
  have place : i / 8 < 32 := by omega
  have item : (bytes v).reverse.getD (i / 8) 0 = byte v (31 - i / 8) := by simp [bytes, place]
  rw [ofBytes_getLsbD _ inside, item, byte_getLsbD _ _ _ (Nat.mod_lt i (by decide))]
  congr 1
  omega

/-- The bytes come out in the reverse order, so the function is its own inverse. -/
theorem toLittleEndian_reverses :
    (∀ v, ∀ j < 32, byte (toLittleEndian v) j = byte v (31 - j)) ∧
    Function.Involutive toLittleEndian ∧ Function.Injective toLittleEndian ∧
    ∀ v : Word, v.toNat < 2 ^ 64 → bytes (toLittleEndian v) =
      ((List.range 8).map fun j => BitVec.ofNat 8 (v.toNat / 256 ^ j)) ++ List.replicate 24 0 := by
  refine ⟨?_, toLittleEndian_involutive, toLittleEndian_injective, fun v small => bytes_toLittleEndian small⟩
  intro v j inside
  rw [byte_toLittleEndian v inside, byte]
  congr 1
  omega

/-- The proposer index of the tests is `0x0aa21e`. -/
theorem toLittleEndian_reverses_proposer :
    bytes (toLittleEndian 696862) = [0x1e, 0xa2, 0x0a, 0, 0, 0, 0, 0] ++ List.replicate 24 0 :=
  (toLittleEndian_reverses.2.2.2 696862 (by decide)).trans (by decide)

end SmoothlyPool
