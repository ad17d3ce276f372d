import SmoothlyPool.Construction.BeaconOracle
import SmoothlyPool.Library.BalancedTree
import SmoothlyPool.Proof.Oracle.LittleEndian
import SmoothlyPool.Proof.Scenario

namespace SmoothlyPool

open Bytes32 ByteOrder

section Spec

/-- A chunk holds up to 32 bytes, and zero bytes fill it. -/
def chunk (bytes : List (BitVec 8)) : Word := ofBytes (bytes ++ List.replicate (32 - bytes.length) 0)

/-- SSZ writes the lowest byte of a number first. -/
def uint64Bytes (x : Uint64) : List (BitVec 8) := (List.range 8).map fun j => BitVec.ofNat 8 (x.toNat / 256 ^ j)

variable {B : Type} [Bytes32 B]

/-- The SSZ merkleization of `2 ^ depth` chunks. -/
def merkleize (depth : ℕ) (chunks : List B) : B := BalancedTree.root sha256 depth fun i => chunks.getD i zero

/-- The public key of 48 bytes takes two chunks. -/
def pubkeyRoot (pubkey : List (BitVec 8)) : B :=
  merkleize 1 [word (chunk (pubkey.take 32)), word (chunk (pubkey.drop 32))]

/-- The record has eight chunks, one for each field. -/
def fieldChunks (validator : BeaconChainValidator) : List B := [
  pubkeyRoot validator.pubkey,
  word validator.withdrawalCredentials,
  word (chunk (uint64Bytes validator.effectiveBalance)),
  word (chunk [if validator.slashed then 1 else 0]),
  word (chunk (uint64Bytes validator.activationEligibilityEpoch)),
  word (chunk (uint64Bytes validator.activationEpoch)),
  word (chunk (uint64Bytes validator.exitEpoch)),
  word (chunk (uint64Bytes validator.withdrawableEpoch))]

end Spec

namespace BeaconOracle

section Loops

variable {B : Type} [Bytes32 B]

theorem hashLevel_length (pairs target source : ℕ) (nodes : List B) (scratch : B) :
    (hashLevel pairs target source nodes scratch).1.length = nodes.length := by
  induction pairs generalizing target source nodes scratch with
  | zero => rfl
  | succ pairs ih => rw [hashLevel, ih, List.length_set]

/-- The target stays behind the source, so the loop reads every node before it is overwritten. -/
theorem hashLevel_getD (pairs target source : ℕ) (nodes : List B) (scratch : B) (behind : target ≤ source)
    (inside : source + 2 * pairs ≤ nodes.length) (k : ℕ) :
    (hashLevel pairs target source nodes scratch).1.getD k zero =
      if target ≤ k ∧ k < target + pairs then
        sha256 (nodes.getD (source + 2 * (k - target)) zero) (nodes.getD (source + 2 * (k - target) + 1) zero)
      else nodes.getD k zero := by
  induction pairs generalizing target source nodes scratch with
  | zero => rw [hashLevel, if_neg (by omega)]
  | succ pairs ih =>
      rw [hashLevel]
      generalize hashes : sha256 (nodes.getD source zero) (nodes.getD (source + 1) zero) = parent
      have written : (nodes.set target parent).getD target zero = parent := by
        simp [show target < nodes.length by omega]
      have kept (j : ℕ) (other : target ≠ j) : (nodes.set target parent).getD j zero = nodes.getD j zero := by
        simp [List.getD_eq_getElem?_getD, other]
      have rest := ih (target + 1) (source + 2) (nodes.set target parent) parent (by omega)
        (by rw [List.length_set]; omega)
      rw [rest]
      by_cases first : k = target
      · subst first
        rw [if_neg (by omega), written, if_pos (by omega), Nat.sub_self, ← hashes]
        rfl
      · by_cases later : target + 1 ≤ k ∧ k < target + 1 + pairs
        · have next : source + 2 + 2 * (k - (target + 1)) = source + 2 * (k - target) := by omega
          rw [if_pos later, if_pos (by omega), kept _ (by omega), kept _ (by omega), next]
        · rw [if_neg later, if_neg (by omega), kept k (Ne.symm first)]

/-- Each level leaves the hashes of adjacent nodes at the front of the array. -/
theorem hashLevels_eq (depth : ℕ) (nodes : List B) (enough : 2 ^ (depth + 1) ≤ nodes.length) :
    hashLevels (depth + 1) (2 ^ (depth + 1)) nodes = merkleize (depth + 1) nodes := by
  induction depth generalizing nodes with
  | zero => rfl
  | succ depth ih =>
      have half : 2 ^ (depth + 1 + 1) / 2 = 2 ^ (depth + 1) := by
        rw [pow_succ]
        omega
      have more : 2 ^ (depth + 1) ≠ 1 := by
        have large : 2 ^ 1 ≤ 2 ^ (depth + 1) := Nat.pow_le_pow_right (by omega) (by omega)
        omega
      rw [pow_succ] at enough
      have cells := hashLevel_getD (2 ^ (depth + 1)) 0 0 nodes zero le_rfl (by omega)
      have length := hashLevel_length (2 ^ (depth + 1)) 0 0 nodes zero
      rw [hashLevels, Nat.shiftRight_one, half]
      simp only [if_neg more]
      rw [ih _ (by omega), merkleize, merkleize, BalancedTree.root_level (depth + 1)]
      apply BalancedTree.root_congr
      intro i inside
      rw [cells, if_pos ⟨Nat.zero_le i, by omega⟩]
      simp

end Loops

section Chunks

theorem mload_eq (bytes : ℕ → BitVec 8) (offset : ℕ) :
    mload bytes offset = ofBytes ((List.range 32).map fun i => bytes (offset + i)) := by
  rw [ofBytes, List.foldl_map]
  rfl

variable {B : Type} {env : Env B} {pubkey : List (BitVec 8)}

/-- The first word of the memory holds the first chunk of the public key. -/
theorem mload_first (length : pubkey.length = 48) :
    mload (pubkeyMemory env pubkey) 0 = chunk (pubkey.take 32) := by
  rw [mload_eq, chunk]
  congr 1
  apply List.ext_getElem (by simp [length])
  intro i inside _
  have range : i < 32 := by simpa using inside
  simp [pubkeyMemory, length, show i < 48 by omega]

/-- The second word holds the other chunk when the memory behind the key is zero. -/
theorem mload_second (length : pubkey.length = 48)
    (padded : ∀ offset, 48 ≤ offset → offset < 64 → env.memory offset = 0) :
    mload (pubkeyMemory env pubkey) 32 = chunk (pubkey.drop 32) := by
  rw [mload_eq, chunk]
  congr 1
  apply List.ext_getElem (by simp [length])
  intro i inside _
  have range : i < 32 := by simpa using inside
  rw [List.getElem_append]
  by_cases low : i < 16
  · simp [pubkeyMemory, length, low, show 32 + i < 48 by omega]
  · have behind : pubkeyMemory env pubkey (32 + i) = 0 := by
      simp [pubkeyMemory, length, show ¬ 32 + i < 48 by omega, padded (32 + i) (by omega) (by omega)]
    rw [dif_neg (by simpa [length] using low), List.getElem_replicate, List.getElem_map, List.getElem_range, behind]

theorem toLittleEndian_chunk (x : Uint64) : toLittleEndian (x.setWidth 256) = chunk (uint64Bytes x) := by
  have value : (x.setWidth 256).toNat = x.toNat := BitVec.toNat_setWidth_of_le (by decide)
  rw [← ofBytes_bytes (toLittleEndian (x.setWidth 256)), bytes_toLittleEndian (by rw [value]; exact x.isLt), value]
  simp [chunk, uint64Bytes]

theorem toLittleEndianBool_chunk (b : Bool) : toLittleEndianBool b = chunk [if b then 1 else 0] := by
  cases b <;> decide

end Chunks

variable {B : Type} [Bytes32 B]

/-- The chunks of the record in memory. -/
def memoryChunks (env : Env B) (validator : BeaconChainValidator) : List B :=
  let bytes := pubkeyMemory env validator.pubkey
  sha256 (word (mload bytes 0)) (word (mload bytes 32)) :: (fieldChunks validator).tail

/-- The function returns the root of the record in memory. -/
theorem validatorHashTreeRoot_eq (env : Env B) (validator : BeaconChainValidator) :
    validatorHashTreeRoot env validator = merkleize 3 (memoryChunks env validator) := by
  rw [validatorHashTreeRoot]
  simp only [toLittleEndian_chunk, toLittleEndianBool_chunk]
  exact hashLevels_eq 2 _ le_rfl

theorem memoryChunks_eq {env : Env B} {validator : BeaconChainValidator} (length : validator.pubkey.length = 48)
    (padded : ∀ offset, 48 ≤ offset → offset < 64 → env.memory offset = 0) :
    memoryChunks env validator = fieldChunks validator := by
  rw [memoryChunks, mload_first length, mload_second length padded]
  rfl

theorem uint64Chunk_injective : Function.Injective fun x : Uint64 => chunk (uint64Bytes x) := by
  intro x y same
  simp only [← toLittleEndian_chunk] at same
  have wide := congrArg BitVec.toNat (toLittleEndian_injective same)
  apply BitVec.eq_of_toNat_eq
  rwa [BitVec.toNat_setWidth_of_le (by decide), BitVec.toNat_setWidth_of_le (by decide)] at wide

theorem boolChunk_injective : Function.Injective fun b : Bool => chunk [if b then 1 else 0] := by
  intro x y
  revert x y
  decide

/-- The result is the SSZ root of the record, and records with one result differ in their public keys at most. -/
theorem validatorHashTreeRoot_ssz :
    (∀ (env : Env B) (validator : BeaconChainValidator), validator.pubkey.length = 48 →
      (∀ offset, 48 ≤ offset → offset < 64 → env.memory offset = 0) →
      validatorHashTreeRoot env validator = merkleize 3 (fieldChunks validator)) ∧
    (CollisionFree B → ∀ (env env' : Env B) (validator other : BeaconChainValidator),
      validatorHashTreeRoot env validator = validatorHashTreeRoot env' other →
      validator.withdrawalCredentials = other.withdrawalCredentials ∧
      validator.effectiveBalance = other.effectiveBalance ∧
      validator.slashed = other.slashed ∧
      validator.activationEligibilityEpoch = other.activationEligibilityEpoch ∧
      validator.activationEpoch = other.activationEpoch ∧
      validator.exitEpoch = other.exitEpoch ∧
      validator.withdrawableEpoch = other.withdrawableEpoch) := by
  constructor
  · intro env validator length padded
    rw [validatorHashTreeRoot_eq, memoryChunks_eq length padded]
  · intro collisionFree env env' validator other same
    rw [validatorHashTreeRoot_eq, validatorHashTreeRoot_eq] at same
    have chunks := BalancedTree.root_injective CollisionFree.sha256_injective 3 same
    have field (i : ℕ) (inside : i < 8) {x y : Word} (left : (memoryChunks env validator).getD i zero = word x)
        (right : (memoryChunks env' other).getD i zero = word y) : x = y := by
      apply CollisionFree.word_injective (B := B)
      rw [← left, ← right]
      exact chunks i inside
    exact ⟨field 1 (by decide) rfl rfl, uint64Chunk_injective (field 2 (by decide) rfl rfl),
      boolChunk_injective (field 3 (by decide) rfl rfl), uint64Chunk_injective (field 4 (by decide) rfl rfl),
      uint64Chunk_injective (field 5 (by decide) rfl rfl), uint64Chunk_injective (field 6 (by decide) rfl rfl),
      uint64Chunk_injective (field 7 (by decide) rfl rfl)⟩

/-- A zero byte behind the public key does not change the root. -/
theorem validatorHashTreeRoot_ssz_sample :
    let env := Env.answering 0 0 (Term.word 0)
    let validator := BeaconChainValidator.sample 32000000000 5
    validatorHashTreeRoot env validator = merkleize 3 (fieldChunks validator) ∧
      validator.exitEpoch = { validator with pubkey := validator.pubkey ++ [0] }.exitEpoch :=
  ⟨validatorHashTreeRoot_ssz.1 _ _ rfl fun _ _ _ => rfl,
    (validatorHashTreeRoot_ssz.2 inferInstance (Env.answering 0 0 (Term.word 0)) (Env.answering 0 0 (Term.word 0))
      (.sample 32000000000 5) { BeaconChainValidator.sample 32000000000 5 with
        pubkey := (BeaconChainValidator.sample 32000000000 5).pubkey ++ [0] } (by decide +kernel)).2.2.2.2.2.1⟩

end BeaconOracle

end SmoothlyPool
