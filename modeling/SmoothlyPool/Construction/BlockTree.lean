/-
This file fixes the shape of a Deneb beacon block as a binary tree of 32-byte nodes.
-/

import SmoothlyPool.Construction.Bytes32
import SmoothlyPool.Library.GIndex

namespace SmoothlyPool

open Bytes32 GIndex

/-- Each container has a root and the height of its fields below the root: the block with five fields,
its state with twenty-eight, its body with twelve, the execution payload with seventeen, and the
validator list with its length and its elements. -/
def containers : List (ℕ × ℕ) := [(1, 3), (11, 5), (12, 4), (201, 5), (363, 1), (363 * 2, 40)]

/-- A node is composite when it lies inside a container, strictly above the fields. -/
def Composite (k : ℕ) : Prop := ∃ container ∈ containers, ∃ height < container.2, k / 2 ^ height = container.1

instance : DecidablePred Composite := fun _ => inferInstanceAs (Decidable (∃ _ ∈ _, _))

/-- All composite nodes lie in the tree above the validators. -/
theorem Composite.bounds {k : ℕ} (composite : Composite k) : 1 ≤ k ∧ k < 2 ^ 50 := by
  have shape : ∀ container ∈ containers, 1 ≤ container.1 ∧ (container.1 + 1) * 2 ^ container.2 ≤ 2 ^ 50 := by
    decide
  obtain ⟨⟨root, depth⟩, listed, height, low, same⟩ := composite
  obtain ⟨positive, small⟩ := shape _ listed
  have grows : 2 ^ height ≤ 2 ^ depth := Nat.pow_le_pow_right (by omega) (Nat.le_of_lt low)
  constructor
  · rw [← same] at positive
    exact positive.trans (Nat.div_le_self k _)
  · have next : k < (root + 1) * 2 ^ height :=
      (Nat.div_lt_iff_lt_mul (Nat.two_pow_pos height)).mp (by omega)
    exact next.trans_le ((Nat.mul_le_mul_left _ grows).trans small)

/-- The contents of the fields are left open. -/
structure BlockTree (B : Type) [Bytes32 B] where
  node : ℕ → B
  hashed : ∀ k, Composite k → HashedAt sha256 node k

namespace BlockTree

/-- This is the gindex of `proposer_index`. -/
def PROPOSER_INDEX : ℕ := 9

/-- This is the gindex of `body.execution_payload.fee_recipient`. -/
def FEE_RECIPIENT : ℕ := 6433

/-- This is the gindex of the element subtree of `state.validators`. -/
def VALIDATORS : ℕ := 363 * 2

/-- The list has the height 40. -/
def VALIDATORS_DEPTH : ℕ := 40

variable {B : Type} [Bytes32 B]

/-- This is the hash tree root of the container part below a node, over the given fields. -/
def nodeOf (field : ℕ → B) (k : ℕ) : B :=
  if composite : Composite k then
    have bounds := composite.bounds
    sha256 (nodeOf field (2 * k)) (nodeOf field (2 * k + 1))
  else field k
termination_by 2 ^ 50 - k

/-- Every assignment of the fields gives a block. -/
def ofFields (field : ℕ → B) : BlockTree B where
  node := nodeOf field
  hashed k composite := by
    rw [HashedAt, nodeOf, dif_pos composite]

end BlockTree

end SmoothlyPool
