/-
This file embeds the map of `libraries/Arrays.sol` on the slots of the transient storage, and the multiproof over it.
-/

import SmoothlyPool.Construction.Merkle

namespace SmoothlyPool.Slots

open Bytes32 Arrays Merkle

variable {B : Type} [Bytes32 B] (keccak : ℕ → Word)

/-- The function `keccak` gives `keccak256(abi.encode(key))`.
Solidity needs the flag because leaves can be zero. -/
def set (key : ℕ) (value : B) (storage : Word → B) : Word → B :=
  let slot := keccak key
  Function.update (Function.update storage slot value) (slot + 32) (word 1)

def get (key : ℕ) (storage : Word → B) : B := storage (keccak key)

/-- A `bool` is true when its word is not zero. -/
def contains [DecidableEq B] (key : ℕ) (storage : Word → B) : Bool := decide (storage (keccak key + 32) ≠ zero)

/-- A transaction starts with empty transient storage. -/
def fresh : Word → B := fun _ => zero

def setAll : List ℕ → List B → (Word → B) → Word → B
  | key :: keys, value :: values, storage => setAll keys values (set keccak key value storage)
  | _, _, storage => storage

variable [DecidableEq B]

def canHash (storage : Word → B) (k : ℕ) : Bool :=
  contains keccak k storage && contains keccak (k ^^^ 1) storage && !contains keccak (k / 2) storage

def hashPair (storage : Word → B) (k : ℕ) : Word → B :=
  set keccak (k / 2) (sha256 (get keccak ((k ||| 1) ^^^ 1) storage) (get keccak (k ||| 1) storage)) storage

def hashKeys : ℕ → List ℕ → (Word → B) → Except Revert (Word → B)
  | _, [], storage => .ok storage
  | 0, _ :: _, _ => .error .outOfGas
  | fuel + 1, k :: pending, storage =>
      if canHash keccak storage k then hashKeys fuel (push pending (k / 2)) (hashPair keccak storage k)
      else hashKeys fuel pending storage

def calculateMultiMerkleRoot (proof leaves : List B) (indices : List ℕ) (storage : Word → B) :
    Except Revert (B × (Word → B)) := do
  Checked.require (leaves.length = indices.length) .invalidProof
  let helperIndices ← getHelperIndices indices
  Checked.require (proof.length = helperIndices.length) .invalidProof
  let keys := sortReverse (concat helperIndices indices)
  let storage := setAll keccak helperIndices proof storage
  let storage := setAll keccak indices leaves storage
  let storage ← hashKeys keccak (keyBudget keys) keys storage
  .ok (get keccak 1 storage, storage)

end SmoothlyPool.Slots
