import SmoothlyPool.Construction.Merkle
import Mathlib.Tactic

namespace SmoothlyPool.Merkle

/-- The code sets a fresh bit of `r`, which adds the power of two. -/
theorem or_shift_eq_add {r bit mask z : ℕ} (aligned : r % 2 ^ (bit + 1) = 0) :
    r ||| ((if mask < z then 1 else 0) <<< bit) = r + if mask < z then 2 ^ bit else 0 := by
  obtain ⟨q, rfl⟩ := Nat.dvd_of_mod_eq_zero aligned
  split_ifs
  · rw [Nat.one_shiftLeft]
    exact (Nat.two_pow_add_eq_or_of_lt (Nat.pow_lt_pow_succ (by omega)) q).symm
  · rw [Nat.zero_shiftLeft, Nat.or_zero]
    rfl

/-- A comparison moves the highest bit into the lower half of the remaining bits. -/
theorem narrow {x r : ℕ} (bit mask : ℕ) (aligned : r % 2 ^ (bit + 1) = 0) (width : mask + 1 = 2 ^ 2 ^ bit)
    (positive : 0 < x >>> r) (bound : x >>> r < 2 ^ 2 ^ (bit + 1)) :
    (r ||| ((if mask < x >>> r then 1 else 0) <<< bit)) % 2 ^ bit = 0 ∧
    0 < x >>> (r ||| ((if mask < x >>> r then 1 else 0) <<< bit)) ∧
    x >>> (r ||| ((if mask < x >>> r then 1 else 0) <<< bit)) < 2 ^ 2 ^ bit := by
  have divides : r % 2 ^ bit = 0 :=
    Nat.mod_eq_zero_of_dvd ((pow_dvd_pow 2 (Nat.le_succ bit)).trans (Nat.dvd_of_mod_eq_zero aligned))
  have room := Nat.two_pow_pos (2 ^ bit)
  rw [or_shift_eq_add aligned]
  split_ifs with large
  · have shifted : x >>> (r + 2 ^ bit) = (x >>> r) / 2 ^ 2 ^ bit := by
      rw [Nat.shiftRight_add, Nat.shiftRight_eq_div_pow (x >>> r)]
    rw [shifted, Nat.add_mod_right]
    refine ⟨divides, Nat.div_pos (by omega) room, ?_⟩
    rw [Nat.div_lt_iff_lt_mul room, ← pow_add, ← Nat.two_mul, ← pow_succ']
    exact bound
  · rw [Nat.add_zero]
    exact ⟨divides, positive, by omega⟩

/-- The bits of `x` below `high + 1` that lie less than `depth` below it are all set, and no higher bit is. -/
def Smeared (high depth x : ℕ) : Prop :=
  (∀ i ≤ high, high < i + depth → x.testBit i = true) ∧ ∀ i, high < i → x.testBit i = false

theorem smeared_log2 {x : ℕ} (positive : x ≠ 0) : Smeared x.log2 1 x := by
  constructor
  · intro i low near
    obtain rfl : i = x.log2 := by omega
    exact Nat.testBit_log2 positive
  · intro i high
    apply Nat.testBit_lt_two_pow
    exact (Nat.log2_lt positive).mp high

/-- One round of the smear doubles the number of set bits. -/
theorem Smeared.double {high depth x : ℕ} (smeared : Smeared high depth x) :
    Smeared high (depth + depth) (x ||| x >>> depth) := by
  obtain ⟨set, clear⟩ := smeared
  constructor
  · intro i low near
    rw [Nat.testBit_or, Nat.testBit_shiftRight]
    by_cases already : high < i + depth
    · rw [set i low already, Bool.true_or]
    · rw [set (depth + i) (by omega) (by omega), Bool.or_true]
  · intro i above
    rw [Nat.testBit_or, Nat.testBit_shiftRight, clear i above, clear (depth + i) (by omega), Bool.or_false]

/-- A fully smeared number is one less than a power of two. -/
theorem Smeared.eq {high depth x : ℕ} (smeared : Smeared high depth x) (full : high < depth) :
    x = 2 ^ (high + 1) - 1 := by
  obtain ⟨set, clear⟩ := smeared
  apply Nat.eq_of_testBit_eq
  intro i
  rw [Nat.testBit_two_pow_sub_one]
  by_cases low : i ≤ high
  · rw [set i low (by omega)]
    exact (decide_eq_true (by omega)).symm
  · rw [clear i (by omega)]
    exact (decide_eq_false (by omega)).symm

/-- The De Bruijn table returns the index of the highest bit of a smeared limb. -/
theorem table_lookup (high : Fin 32) :
    let selected := ((2 ^ (high.val + 1) - 1) * (0x07c4acdd <<< 224) % 2 ^ 256) >>> 251
    let table := 0x0009010a0d15021d0b0e10121619031e080c141c0f111807131b17061a05041f
    (if selected < 32 then (table >>> (8 * (31 - selected))) % 256 else 0) = high.val := by
  revert high
  decide

theorem log2_shiftRight_add {x r : ℕ} (positive : 0 < x >>> r) : x.log2 = r + (x >>> r).log2 := by
  have some : x ≠ 0 := by
    rintro rfl
    simp at positive
  rw [Nat.log2_eq_iff some]
  have low := Nat.log2_self_le positive.ne'
  have high : x >>> r < 2 ^ ((x >>> r).log2 + 1) := Nat.lt_log2_self
  rw [Nat.shiftRight_eq_div_pow] at low high ⊢
  constructor
  · rw [pow_add, mul_comm]
    exact (Nat.mul_le_mul_right _ low).trans (Nat.div_mul_le_self x _)
  · rw [add_assoc, pow_add, mul_comm]
    exact (Nat.div_lt_iff_lt_mul (Nat.two_pow_pos r)).mp high

/-- The code computes the binary logarithm. -/
theorem log2_ok {x : ℕ} (positive : 0 < x) (bound : x < 2 ^ 256) : log2 x = .ok x.log2 := by
  rw [log2, if_neg positive.ne']
  extract_lets lt r₁ r₂ r₃ y y₁ y₂ y₃ y₄ y₅ selected table
  have start : r₁ = 0 ||| lt 0xffffffffffffffffffffffffffffffff (x >>> 0) <<< 7 := (Nat.zero_or _).symm
  obtain ⟨aligned₁, positive₁, bound₁⟩ : r₁ % 2 ^ 7 = 0 ∧ 0 < x >>> r₁ ∧ x >>> r₁ < 2 ^ 2 ^ 7 := by
    rw [start]
    exact narrow 7 0xffffffffffffffffffffffffffffffff rfl rfl positive bound
  obtain ⟨aligned₂, positive₂, bound₂⟩ : r₂ % 2 ^ 6 = 0 ∧ 0 < x >>> r₂ ∧ x >>> r₂ < 2 ^ 2 ^ 6 :=
    narrow 6 0xffffffffffffffff aligned₁ rfl positive₁ bound₁
  obtain ⟨aligned₃, positive₃, bound₃⟩ : r₃ % 2 ^ 5 = 0 ∧ 0 < y ∧ y < 2 ^ 2 ^ 5 :=
    narrow 5 0xffffffff aligned₂ rfl positive₂ bound₂
  have few : y.log2 < 32 := (Nat.log2_lt positive₃.ne').mpr bound₃
  have smeared : y₅ = 2 ^ (y.log2 + 1) - 1 :=
    (smeared_log2 positive₃.ne').double.double.double.double.double.eq few
  have looked : (if selected < 32 then (table >>> (8 * (31 - selected))) % 256 else 0) = y.log2 := by
    rw [show selected = (y₅ * (0x07c4acdd <<< 224) % 2 ^ 256) >>> 251 from rfl, smeared]
    exact table_lookup ⟨y.log2, few⟩
  obtain ⟨q, multiple⟩ := Nat.dvd_of_mod_eq_zero aligned₃
  rw [looked, log2_shiftRight_add positive₃]
  have sum : r₃ ||| y.log2 = r₃ + y.log2 := by
    rw [multiple]
    exact (Nat.two_pow_add_eq_or_of_lt few q).symm
  exact congrArg Except.ok sum

end SmoothlyPool.Merkle
