import Mathlib.Data.Nat.Notation
import Mathlib.Logic.Function.Basic
import Mathlib.Tactic

namespace BalancedTree

variable {B : Type} {hash : B → B → B}

/-- A tree has `2 ^ depth` leaves, and its root hashes the roots of both halves. -/
def root (hash : B → B → B) : ℕ → (ℕ → B) → B
  | 0, leaf => leaf 0
  | depth + 1, leaf => hash (root hash depth leaf) (root hash depth fun i => leaf (2 ^ depth + i))

/-- The root depends on the leaves of the tree only. -/
theorem root_congr (depth : ℕ) {leaf other : ℕ → B} (same : ∀ i < 2 ^ depth, leaf i = other i) :
    root hash depth leaf = root hash depth other := by
  induction depth generalizing leaf other with
  | zero => exact same 0 Nat.one_pos
  | succ depth ih =>
      rw [pow_succ] at same
      rw [root, root]
      congr 1
      · exact ih fun i inside => same i (by omega)
      · exact ih fun i inside => same (2 ^ depth + i) (by omega)

/-- The hashes of adjacent leaves are the leaves of a tree with the same root. -/
theorem root_level (depth : ℕ) (leaf : ℕ → B) :
    root hash (depth + 1) leaf = root hash depth fun i => hash (leaf (2 * i)) (leaf (2 * i + 1)) := by
  induction depth generalizing leaf with
  | zero => rfl
  | succ depth ih =>
      have shift (i : ℕ) : 2 * (2 ^ depth + i) = 2 ^ (depth + 1) + 2 * i := by
        rw [pow_succ]
        omega
      rw [root, ih, ih, root]
      simp only [shift, Nat.add_assoc]

/-- Trees with one root have the same leaves. -/
theorem root_injective (injective : Function.Injective2 hash) (depth : ℕ) {leaf other : ℕ → B}
    (same : root hash depth leaf = root hash depth other) : ∀ i < 2 ^ depth, leaf i = other i := by
  induction depth generalizing leaf other with
  | zero =>
      intro i inside
      obtain rfl : i = 0 := by simpa using inside
      exact same
  | succ depth ih =>
      intro i inside
      obtain ⟨left, right⟩ := injective same
      rw [pow_succ] at inside
      by_cases low : i < 2 ^ depth
      · exact ih left i low
      · have upper := ih right (i - 2 ^ depth) (by omega)
        rwa [Nat.add_sub_cancel' (Nat.le_of_not_lt low)] at upper

/-- This is the root of the subtree below a node, where the nodes of a level are numbered from its power of two. -/
def label (hash : B → B → B) (depth : ℕ) (leaf : ℕ → B) (k : ℕ) : B :=
  root hash (depth - k.log2) fun i => leaf ((k - 2 ^ k.log2) * 2 ^ (depth - k.log2) + i)

theorem label_one (depth : ℕ) (leaf : ℕ → B) : label hash depth leaf 1 = root hash depth leaf := by
  simp [label, show Nat.log2 1 = 0 by decide]

theorem log2_leaf {depth i : ℕ} (inside : i < 2 ^ depth) : (2 ^ depth + i).log2 = depth := by
  rw [Nat.log2_eq_iff (by have := Nat.two_pow_pos depth; omega), pow_succ]
  omega

theorem label_leaf (depth : ℕ) (leaf : ℕ → B) {i : ℕ} (inside : i < 2 ^ depth) :
    label hash depth leaf (2 ^ depth + i) = leaf i := by
  simp [label, log2_leaf inside, root]

/-- The label of a node above the leaves is the hash of the labels of its children. -/
theorem label_node (depth : ℕ) (leaf : ℕ → B) {k : ℕ} (positive : 1 ≤ k) (inside : k.log2 < depth) :
    label hash depth leaf k = hash (label hash depth leaf (2 * k)) (label hash depth leaf (2 * k + 1)) := by
  have low : 2 ^ k.log2 ≤ k := Nat.log2_self_le (by omega)
  have left : (2 * k).log2 = k.log2 + 1 := Nat.log2_two_mul (by omega)
  have right : (2 * k + 1).log2 = k.log2 + 1 := by
    rw [Nat.log2_def, if_pos (by omega), show (2 * k + 1) / 2 = k by omega]
  obtain ⟨rest, height⟩ := Nat.exists_eq_add_of_lt inside
  have here : depth - k.log2 = rest + 1 := by omega
  have below : depth - (k.log2 + 1) = rest := by omega
  have first : (2 * k - 2 ^ (k.log2 + 1)) * 2 ^ rest = (k - 2 ^ k.log2) * 2 ^ (rest + 1) := by
    rw [pow_succ, pow_succ, show 2 * k - 2 ^ k.log2 * 2 = 2 * (k - 2 ^ k.log2) by omega]
    ring
  have second (i : ℕ) : (2 * k + 1 - 2 ^ (k.log2 + 1)) * 2 ^ rest + i =
      (k - 2 ^ k.log2) * 2 ^ (rest + 1) + (2 ^ rest + i) := by
    rw [pow_succ, pow_succ, show 2 * k + 1 - 2 ^ k.log2 * 2 = 2 * (k - 2 ^ k.log2) + 1 by omega]
    ring
  rw [label, label, label, left, right, here, below, root]
  simp only [first, second]

end BalancedTree
