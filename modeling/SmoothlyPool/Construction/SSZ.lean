/-
This file embeds `libraries/SSZ.sol`.
-/

import SmoothlyPool.Construction.BeaconOracle

namespace SmoothlyPool.SSZ

open Bytes32

/-- These are the errors of `verifyProof`. -/
inductive BranchError where
  | branchHasMissingItem
  | branchHasExtraItem
deriving DecidableEq, Repr

structure Withdrawal where
  index : Uint64
  validatorIndex : Uint64
  address : Address
  amount : Uint64
deriving DecidableEq

structure BeaconBlockHeader (B : Type) where
  slot : Uint64
  proposerIndex : Uint64
  parentRoot : B
  stateRoot : B
  bodyRoot : B
deriving DecidableEq

section HashTreeRoots

variable {B : Type} [Bytes32 B]

/-- The address comes first in its chunk, and twelve zero bytes follow it. -/
def withdrawalHashTreeRoot (withdrawal : Withdrawal) : B :=
  sha256
    (sha256 (word (toLittleEndian (withdrawal.index.setWidth 256)))
      (word (toLittleEndian (withdrawal.validatorIndex.setWidth 256))))
    (sha256 (word (leftAligned withdrawal.address)) (word (toLittleEndian (withdrawal.amount.setWidth 256))))

/-- Both contracts carry the same `validatorHashTreeRoot`. -/
def validatorHashTreeRoot (env : Env B) (validator : BeaconChainValidator) : B :=
  BeaconOracle.validatorHashTreeRoot env validator

/-- Three zero nodes fill up the five fields. -/
def beaconHeaderHashTreeRoot (header : BeaconBlockHeader B) : B :=
  let nodes : List B := [
    word (toLittleEndian (header.slot.setWidth 256)),
    word (toLittleEndian (header.proposerIndex.setWidth 256)),
    header.parentRoot,
    header.stateRoot,
    header.bodyRoot,
    zero,
    zero,
    zero]
  BeaconOracle.hashLevels 3 8 nodes

end HashTreeRoots

section Verify

variable {B : Type} [Bytes32 B]

/-- The loop hashes the two words of the scratch space.
The last bit of the index selects the slot of the leaf, and the xor selects the other slot. -/
def verifyLoop : List B → Word → B → (Word → B) → Except BranchError (Word × B)
  | [], index, leaf, _ => .ok (index, leaf)
  | item :: rest, index, leaf, memory => do
      let scratch := (index &&& 1) <<< 5
      let index := index >>> 1
      Checked.require (index ≠ 0) .branchHasExtraItem
      let memory := Function.update memory scratch leaf
      let memory := Function.update memory (scratch ^^^ 0x20) item
      let memory := Function.update memory 0 (sha256 (memory 0) (memory 0x20))
      verifyLoop rest index (memory 0) memory

/-- An empty proof skips the loop.
The subtraction wraps around at zero. -/
def verifyProof [DecidableEq B] (memory : Word → B) (proof : List B) (root leaf : B) (index : Word) :
    Except BranchError Bool := do
  let (index, leaf) ← verifyLoop proof index leaf memory
  Checked.require (¬ index - 1 > 0) .branchHasMissingItem
  .ok (decide (leaf = root))

end Verify

/-- Both libraries carry the same `log2`. -/
def log2 (x : ℕ) : Except Revert ℕ := Merkle.log2 x

/-- The shift of `a` stays in 64 bits, and the literal `1` is shifted in 256 bits.
The shift binds strongest, then the xor, then the or. -/
def concatGindices (a b : Uint64) : Except Revert Uint64 := do
  let stepBitLen ← log2 b.toNat
  let stepBitLen : Uint64 := BitVec.ofNat 64 stepBitLen
  .ok (((a <<< stepBitLen).setWidth 256 ||| (b.setWidth 256 ^^^ (1#256 <<< stepBitLen))).setWidth 64)

end SmoothlyPool.SSZ
