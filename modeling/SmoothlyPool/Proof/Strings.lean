import SmoothlyPool.Construction.Bytes32
import SmoothlyPool.Library.GIndex
import Mathlib.Data.Nat.Pairing

namespace SmoothlyPool

open Bytes32 GIndex

/-- A free term is a word or the hash of two terms. -/
inductive Term where
  | word (value : Word)
  | hash (left right : Term)
deriving DecidableEq

instance : Bytes32 Term := ⟨Term.word, Term.hash⟩

instance : CollisionFree Term where
  word_injective _ _ same := Term.word.inj same
  sha256_injective _ _ _ _ same := Term.hash.inj same

/-- Every number is the pair of two numbers, so every string is a hash. -/
structure PairNumber where
  value : ℕ
deriving DecidableEq

namespace PairNumber

instance : Bytes32 PairNumber := ⟨fun word => ⟨word.toNat⟩, fun left right => ⟨Nat.pair left.value right.value⟩⟩

instance : CollisionFree PairNumber where
  word_injective _ _ same := BitVec.eq_of_toNat_eq (PairNumber.mk.inj same)
  sha256_injective _ _ _ _ same := by
    obtain ⟨left, right⟩ := Nat.pair_eq_pair.mp (PairNumber.mk.inj same)
    exact ⟨congrArg PairNumber.mk left, congrArg PairNumber.mk right⟩

/-- The tree below a string splits each string into its pair. -/
def tree (root : PairNumber) : ℕ → PairNumber :=
  descend (fun b => ⟨b.value.unpair.1⟩) (fun b => ⟨b.value.unpair.2⟩) root

theorem tree_one (root : PairNumber) : root.tree 1 = root := descend_one _ _ root

theorem tree_hashed (root : PairNumber) {k : ℕ} (positive : 1 ≤ k) : HashedAt sha256 root.tree k := by
  apply descend_hashed _ root positive
  intro b
  exact congrArg PairNumber.mk (Nat.pair_unpair b.value)

end PairNumber

/-- A node string is a node of the tree or a pair that no node has as its children.
`place` puts the words on the nodes. -/
inductive NodeString (place : Word → ℕ) where
  | node (k : ℕ)
  | pair (left right : NodeString place)
deriving DecidableEq

namespace NodeString

variable {place : Word → ℕ}

/-- Two children give their parent. -/
def hash : NodeString place → NodeString place → NodeString place
  | node left, node right =>
      if left % 2 = 0 ∧ right = left + 1 then node (left / 2) else pair (node left) (node right)
  | left, right => pair left right

instance : Bytes32 (NodeString place) := ⟨fun word => node (place word), hash⟩

theorem hash_cases (left right : NodeString place) :
    hash left right = pair left right ∨
      ∃ k, left = node (2 * k) ∧ right = node (2 * k + 1) ∧ hash left right = node k := by
  cases left with
  | pair => exact .inl rfl
  | node left =>
      cases right with
      | pair => exact .inl rfl
      | node right =>
          by_cases children : left % 2 = 0 ∧ right = left + 1
          · obtain ⟨even, rfl⟩ := children
            have double : left = 2 * (left / 2) := by omega
            have parent : hash (node left) (node (left + 1)) = (node (left / 2) : NodeString place) :=
              if_pos ⟨even, rfl⟩
            exact .inr ⟨left / 2, congrArg node double, congrArg (fun k => node (k + 1)) double, parent⟩
          · exact .inl (if_neg children)

theorem hash_injective : Function.Injective2 (hash : NodeString place → NodeString place → NodeString place) := by
  intro left left' right right' same
  rcases hash_cases left right with new | ⟨k, rfl, rfl, old⟩ <;>
    rcases hash_cases left' right' with new' | ⟨k', rfl, rfl, old'⟩
  · rw [new, new'] at same
    exact pair.inj same
  · rw [new, old'] at same
    exact absurd same (by simp)
  · rw [old, new'] at same
    exact absurd same (by simp)
  · rw [old, old'] at same
    obtain rfl := node.inj same
    exact ⟨rfl, rfl⟩

/-- The tree labels each node with itself. -/
theorem node_hashed (k : ℕ) : HashedAt sha256 (node : ℕ → NodeString place) k := by
  have even : 2 * k % 2 = 0 ∧ 2 * k + 1 = 2 * k + 1 := ⟨by omega, rfl⟩
  have half : 2 * k / 2 = k := by omega
  rw [HashedAt]
  show node k = if 2 * k % 2 = 0 ∧ 2 * k + 1 = 2 * k + 1 then node (2 * k / 2) else _
  rw [if_pos even, half]

theorem collisionFree (injective : Function.Injective place) : CollisionFree (NodeString place) where
  word_injective _ _ same := injective (NodeString.node.inj same)
  sha256_injective := hash_injective

end NodeString

end SmoothlyPool
