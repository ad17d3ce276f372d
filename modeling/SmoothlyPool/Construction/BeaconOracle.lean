/-
This file embeds `BeaconOracle.sol`.
-/

import SmoothlyPool.Construction.Merkle

namespace SmoothlyPool

open Bytes32

/-- This is `IBeaconOracle.BeaconChainValidator`. -/
structure BeaconChainValidator where
  pubkey : List (BitVec 8)
  withdrawalCredentials : Word
  effectiveBalance : Uint64
  slashed : Bool
  activationEligibilityEpoch : Uint64
  activationEpoch : Uint64
  exitEpoch : Uint64
  withdrawableEpoch : Uint64
deriving DecidableEq

/-- A call sees the block timestamp, the answers of the `BEACON_ROOTS` contract, and the bytes
that lie in memory behind a decoded public key.
Beacon payloads carry the timestamp as a `uint64`. -/
structure Env (B : Type) where
  timestamp : ℕ
  timestamp_lt : timestamp < 2 ^ 64
  beaconRoots : Uint64 → Option B
  memory : ℕ → BitVec 8

namespace BeaconOracle

variable {B : Type}

def SECONDS_PER_EPOCH : ℕ := 12 * 32

def BEACON_GENESIS : ℕ := 1606824000

def getEpoch (timestamp : ℕ) : Except Revert ℕ := do
  let ellapsed ← Checked.sub .arithmetic timestamp BEACON_GENESIS
  .ok (ellapsed / SECONDS_PER_EPOCH)

def isActiveValidator (env : Env B) (validator : BeaconChainValidator) : Except Revert Bool := do
  let epoch ← getEpoch env.timestamp
  .ok (decide (validator.activationEpoch.toNat ≤ epoch) && decide (epoch < validator.exitEpoch.toNat))

/-- The first byte of BLS withdrawal credentials is zero. -/
def withdrawalToAddress (withdrawal : Word) : Except Revert Address := do
  Checked.require (withdrawal >>> 248 ≠ 0) .invalidWithdrawalAddr
  .ok (withdrawal.setWidth 160)

/-- The call fails when `BEACON_ROOTS` reverts or returns no data. -/
def getParentBlockRoot (env : Env B) (ts : Uint64) : Except Revert B :=
  match env.beaconRoots ts with
  | some root => .ok root
  | none => .error .rootNotFound

/-- A memory word reads 32 bytes, the first one highest. -/
def mload (bytes : ℕ → BitVec 8) (offset : ℕ) : Word :=
  (List.range 32).foldl (fun word i => word <<< 8 ||| (bytes (offset + i)).setWidth 256) 0

/-- The bytes of the public key come first, and the following memory comes after them. -/
def pubkeyMemory (env : Env B) (pubkey : List (BitVec 8)) (offset : ℕ) : BitVec 8 :=
  pubkey.getD offset (env.memory offset)

variable [Bytes32 B]

/-- The inner loop hashes adjacent nodes and stores each hash in the same node array.
It also returns the scratch word at memory position zero. -/
def hashLevel : ℕ → ℕ → ℕ → List B → B → List B × B
  | 0, _, _, nodes, scratch => (nodes, scratch)
  | pairs + 1, target, source, nodes, _ =>
      let scratch := sha256 (nodes.getD source zero) (nodes.getD (source + 1) zero)
      hashLevel pairs (target + 1) (source + 2) (nodes.set target scratch) scratch

/-- The outer loop halves the count until one hash remains. -/
def hashLevels : ℕ → ℕ → List B → B
  | 0, _, _ => zero
  | levels + 1, count, nodes =>
      let (nodes, scratch) := hashLevel (count / 2) 0 0 nodes zero
      let count := count >>> 1
      if count = 1 then scratch else hashLevels levels count nodes

/-- The precompile reads 64 bytes from the public key. -/
def validatorHashTreeRoot (env : Env B) (validator : BeaconChainValidator) : B :=
  let bytes := pubkeyMemory env validator.pubkey
  let pubkeyRoot : B := sha256 (word (mload bytes 0)) (word (mload bytes 32))
  let nodes : List B := [
    pubkeyRoot,
    word validator.withdrawalCredentials,
    word (toLittleEndian (validator.effectiveBalance.setWidth 256)),
    word (toLittleEndianBool validator.slashed),
    word (toLittleEndian (validator.activationEligibilityEpoch.setWidth 256)),
    word (toLittleEndian (validator.activationEpoch.setWidth 256)),
    word (toLittleEndian (validator.exitEpoch.setWidth 256)),
    word (toLittleEndian (validator.withdrawableEpoch.setWidth 256))]
  hashLevels 3 8 nodes

variable [DecidableEq B]

def verifyValidator (env : Env B) (validatorProof : List B) (validator : BeaconChainValidator)
    (gIndex : ℕ) (ts : Uint64) : Except Revert Bool := do
  let validatorRoot := validatorHashTreeRoot env validator
  let blockRoot ← getParentBlockRoot env ts
  let root ← Merkle.calculateMerkleRoot validatorProof validatorRoot gIndex
  Checked.require (root = blockRoot) .invalidProof
  .ok true

/-- The multiproof writes to transient storage, so the map is passed on. -/
def verifyFeeRecipient (env : Env B) (indices : List ℕ) (proof : List B) (validatorIndex : Word)
    (feeRecipient : Address) (timestamp : Uint64) (map : HashMap B) :
    Except Revert (Bool × HashMap B) := do
  Checked.require (indices.length = 2) .lengthMismatch
  let leaves : List B :=
    [word (toLittleEndian validatorIndex), word (leftAligned feeRecipient)]
  let blockRoot ← getParentBlockRoot env timestamp
  let (root, map) ← Merkle.calculateMultiMerkleRoot proof leaves indices map
  Checked.require (root = blockRoot) .invalidProof
  .ok (true, map)

end BeaconOracle

end SmoothlyPool
