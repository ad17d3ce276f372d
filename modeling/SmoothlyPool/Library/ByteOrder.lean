import Mathlib.Data.Nat.Bitwise
import Mathlib.Data.Nat.Notation
import Mathlib.Tactic

namespace ByteOrder

variable {w : ℕ}

/-- The exchange moves a position up or down by one block. -/
theorem flip_eq (i k : ℕ) : i ^^^ 2 ^ k = if i.testBit k then i - 2 ^ k else i + 2 ^ k := by
  have room := Nat.two_pow_pos k
  have block : (i ^^^ 2 ^ k) / 2 ^ k = (i / 2 ^ k) ^^^ 1 := by
    rw [Nat.xor_div_two_pow, Nat.div_self room]
  have inside : (i ^^^ 2 ^ k) % 2 ^ k = i % 2 ^ k := by
    rw [Nat.xor_mod_two_pow, Nat.mod_self, Nat.xor_zero]
  have whole := Nat.div_add_mod (i ^^^ 2 ^ k) (2 ^ k)
  have parts := Nat.div_add_mod i (2 ^ k)
  have bit := @Nat.xor_mod_two_eq_one (i / 2 ^ k) 1
  have half : (i / 2 ^ k ^^^ 1) / 2 = i / 2 ^ k / 2 := by rw [Nat.xor_div_two, Nat.xor_zero]
  rw [block, inside] at whole
  rw [Nat.testBit_eq_decide_div_mod_eq, ← whole]
  simp only [decide_eq_true_eq]
  split_ifs with set
  · have lower : i / 2 ^ k = (i / 2 ^ k ^^^ 1) + 1 := by omega
    rw [lower, Nat.mul_add] at parts
    omega
  · have upper : i / 2 ^ k ^^^ 1 = i / 2 ^ k + 1 := by omega
    rw [upper, Nat.mul_add]
    omega

/-- The masks select the blocks at odd and at even places. -/
theorem exchange_getLsbD {k : ℕ} {odd even : BitVec w} (odds : ∀ i < w, odd.getLsbD i = i.testBit k)
    (evens : ∀ i < w, even.getLsbD i = !i.testBit k) (v : BitVec w) {i : ℕ} (inside : i < w) :
    (((v &&& odd) >>> 2 ^ k) ||| ((v &&& even) <<< 2 ^ k)).getLsbD i = v.getLsbD (i ^^^ 2 ^ k) := by
  have room := Nat.two_pow_pos k
  have above : (2 ^ k + i).testBit k = !i.testBit k := Nat.testBit_two_pow_add_eq i k
  simp only [BitVec.getLsbD_or, BitVec.getLsbD_ushiftRight, BitVec.getLsbD_shiftLeft, BitVec.getLsbD_and,
    inside, decide_true, Bool.true_and]
  rw [flip_eq]
  split_ifs with set
  · have large : 2 ^ k ≤ i := Nat.ge_two_pow_of_testBit set
    have below : (i - 2 ^ k).testBit k = false := by
      have flips := Nat.testBit_two_pow_add_eq (i - 2 ^ k) k
      rw [Nat.add_sub_cancel' large, set] at flips
      simpa using flips
    have masked : (v.getLsbD (2 ^ k + i) && odd.getLsbD (2 ^ k + i)) = false := by
      by_cases fits : 2 ^ k + i < w
      · rw [odds _ fits, above, set]
        simp
      · rw [BitVec.getLsbD_of_ge v _ (Nat.le_of_not_lt fits), Bool.false_and]
    rw [masked, evens _ (by omega), below]
    simp [Nat.not_lt.mpr large]
  · have clear : i.testBit k = false := by simpa using set
    have masked : (!decide (i < 2 ^ k) && (v.getLsbD (i - 2 ^ k) && even.getLsbD (i - 2 ^ k))) = false := by
      by_cases small : i < 2 ^ k
      · simp [small]
      · have flips := Nat.testBit_two_pow_add_eq (i - 2 ^ k) k
        rw [Nat.add_sub_cancel' (Nat.le_of_not_lt small), clear] at flips
        rw [evens _ (by omega)]
        simp [← flips]
    rw [masked, Bool.or_false, Nat.add_comm i]
    by_cases fits : 2 ^ k + i < w
    · rw [odds _ fits, above, clear]
      simp
    · rw [BitVec.getLsbD_of_ge v _ (Nat.le_of_not_lt fits), Bool.false_and]

/-- The exchange of both halves needs no mask. -/
theorem halves_getLsbD {k : ℕ} (width : w = 2 ^ (k + 1)) (v : BitVec w) {i : ℕ} (inside : i < w) :
    ((v >>> 2 ^ k) ||| (v <<< 2 ^ k)).getLsbD i = v.getLsbD (i ^^^ 2 ^ k) := by
  rw [pow_succ] at width
  have bit : i.testBit k = decide (2 ^ k ≤ i) := by
    have digit : i / 2 ^ k < 2 := (Nat.div_lt_iff_lt_mul (Nat.two_pow_pos k)).mpr (by omega)
    have one : 1 ≤ i / 2 ^ k ↔ 2 ^ k ≤ i := by
      rw [Nat.le_div_iff_mul_le (Nat.two_pow_pos k), Nat.one_mul]
    rw [Nat.testBit_eq_decide_div_mod_eq, decide_eq_decide, ← one]
    generalize i / 2 ^ k = block at digit
    omega
  simp only [BitVec.getLsbD_or, BitVec.getLsbD_ushiftRight, BitVec.getLsbD_shiftLeft, inside, decide_true,
    Bool.true_and]
  rw [flip_eq, bit]
  by_cases large : 2 ^ k ≤ i
  · rw [BitVec.getLsbD_of_ge v (2 ^ k + i) (by omega)]
    simp [large]
  · simp [Nat.lt_of_not_le large, large, Nat.add_comm i]

/-- The bytes of a word come from left to right. -/
def ofBytes (bytes : List (BitVec 8)) : BitVec w := bytes.foldl (fun word byte => word <<< 8 ||| byte.setWidth w) 0

/-- Each byte shifts the bytes before it. -/
theorem ofBytes_getLsbD (bytes : List (BitVec 8)) {i : ℕ} (inside : i < w) :
    (ofBytes bytes : BitVec w).getLsbD i = (bytes.reverse.getD (i / 8) 0).getLsbD (i % 8) := by
  induction bytes using List.reverseRecOn generalizing i with
  | nil => simp [ofBytes]
  | append_singleton front last ih =>
      have push : (ofBytes (front ++ [last]) : BitVec w) = ofBytes front <<< 8 ||| last.setWidth w := by
        simp [ofBytes]
      rw [push, List.reverse_concat]
      simp only [BitVec.getLsbD_or, BitVec.getLsbD_shiftLeft, BitVec.getLsbD_setWidth, inside, decide_true,
        Bool.true_and]
      by_cases low : i < 8
      · rw [Nat.div_eq_of_lt low, Nat.mod_eq_of_lt low]
        simp [low]
      · obtain ⟨rest, rfl⟩ := Nat.exists_eq_add_of_le (Nat.le_of_not_lt low)
        have next : (8 + rest) / 8 = rest / 8 + 1 := by omega
        rw [Nat.add_sub_cancel_left, ih (by omega), next, Nat.add_mod_left,
          BitVec.getLsbD_of_ge last _ (by omega)]
        simp

/-- A word determines its bytes. -/
theorem ofBytes_injective {count : ℕ} (width : w = 8 * count) {first second : List (BitVec 8)}
    (length : first.length = count) (also : second.length = count)
    (same : (ofBytes first : BitVec w) = ofBytes second) : first = second := by
  apply List.reverse_injective
  apply List.ext_getElem (by simp [length, also])
  intro k inside within
  have place : k < count := by simpa [length] using inside
  apply BitVec.eq_of_getLsbD_eq
  intro b low
  have bit := congrArg (BitVec.getLsbD · (8 * k + b)) same
  have digit : (8 * k + b) / 8 = k := by omega
  have rest : (8 * k + b) % 8 = b := by omega
  simp only [ofBytes_getLsbD _ (show 8 * k + b < w by omega), digit, rest] at bit
  rwa [List.getD_eq_getElem _ _ inside, List.getD_eq_getElem _ _ within] at bit

end ByteOrder
