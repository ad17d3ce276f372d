import SmoothlyPool.Library.NestedTree
import SmoothlyPool.Proof.Merkle.Bundle
import SmoothlyPool.Proof.Merkle.Verifier
import SmoothlyPool.Proof.Oracle.ValidatorRoot

namespace SmoothlyPool

open Bytes32 Checked ByteOrder

/-- An address is a vector of twenty bytes. -/
def addressBytes (address : Address) : List (BitVec 8) :=
  (List.range 20).map fun j => address.extractLsb' (8 * (19 - j)) 8

theorem leftAligned_chunk (address : Address) : leftAligned address = chunk (addressBytes address) := by
  apply BitVec.eq_of_getLsbD_eq
  intro i inside
  have length : (addressBytes address).length = 20 := by simp [addressBytes]
  have read : (addressBytes address ++ List.replicate (32 - (addressBytes address).length) 0).reverse.getD (i / 8) 0 =
      if i / 8 < 12 then 0 else address.extractLsb' (8 * (i / 8 - 12)) 8 := by
    rw [List.reverse_append, List.reverse_replicate, length]
    by_cases low : i / 8 < 12
    · rw [if_pos low, List.getD_append _ _ _ _ (by simpa using low), List.getD_replicate _ low]
    · have behind : i / 8 - 12 < 20 := by omega
      have digit : 19 - (20 - 1 - (i / 8 - 12)) = i / 8 - 12 := by omega
      rw [if_neg low, List.getD_append_right _ _ _ _ (by simpa using low), List.length_replicate]
      simp [addressBytes, behind, digit]
  rw [chunk, ofBytes_getLsbD _ inside, read, leftAligned]
  by_cases low : i / 8 < 12
  · have below : i < 96 := by omega
    simp [low, below]
  · have above : ¬ i < 96 := by omega
    have place : 8 * (i / 8 - 12) + i % 8 = i - 96 := by omega
    simp [low, above, inside, place, Nat.mod_lt]

theorem leftAligned_injective : Function.Injective leftAligned := by
  intro first second same
  apply BitVec.eq_of_getLsbD_eq
  intro i inside
  have bit := congrArg (BitVec.getLsbD · (i + 96)) same
  have place : i + 96 < 256 := by omega
  simpa [leftAligned, place] using bit

/-- Chunks of lists of one length determine the lists. -/
theorem chunk_injective {first second : List (BitVec 8)} (length : first.length = second.length)
    (short : first.length ≤ 32) (same : chunk first = chunk second) : first = second := by
  have filled : first ++ List.replicate (32 - first.length) 0 = second ++ List.replicate (32 - second.length) 0 :=
    @ofBytes_injective 256 32 rfl _ _ (by simp [short]) (by simp [← length, short]) same
  exact (List.append_inj filled length).1

theorem pubkeyRoot_injective {B : Type} [Bytes32 B] [CollisionFree B] {first second : List (BitVec 8)}
    (length : first.length = 48) (also : second.length = 48)
    (same : (pubkeyRoot first : B) = pubkeyRoot second) : first = second := by
  obtain ⟨left, right⟩ := CollisionFree.sha256_injective same
  have low := chunk_injective (by simp [length, also]) (by simp [length]) (CollisionFree.word_injective left)
  have high := chunk_injective (by simp [length, also]) (by simp [length]) (CollisionFree.word_injective right)
  rw [← List.take_append_drop 32 first, ← List.take_append_drop 32 second, low, high]

namespace SSZ

variable {B : Type} [Bytes32 B]

/-- These are the records with a hash tree root in the library. -/
inductive Record (B : Type) where
  | withdrawal (withdrawal : Withdrawal)
  | header (header : BeaconBlockHeader B)
  | validator (validator : BeaconChainValidator)

namespace Record

def hashTreeRoot (env : Env B) : Record B → B
  | .withdrawal fields => withdrawalHashTreeRoot fields
  | .header fields => beaconHeaderHashTreeRoot fields
  | .validator fields => SSZ.validatorHashTreeRoot env fields

def depth : Record B → ℕ
  | .withdrawal _ => 2
  | .header _ => 3
  | .validator _ => 3

/-- SSZ has one chunk for each field. -/
def chunks : Record B → List B
  | .withdrawal fields => [
      word (chunk (uint64Bytes fields.index)),
      word (chunk (uint64Bytes fields.validatorIndex)),
      word (chunk (addressBytes fields.address)),
      word (chunk (uint64Bytes fields.amount))]
  | .header fields => [
      word (chunk (uint64Bytes fields.slot)),
      word (chunk (uint64Bytes fields.proposerIndex)),
      fields.parentRoot,
      fields.stateRoot,
      fields.bodyRoot]
  | .validator fields => fieldChunks fields

/-- A public key has 48 bytes, and zero bytes follow it in memory. -/
def Regular (env : Env B) : Record B → Prop
  | .validator fields => fields.pubkey.length = 48 ∧
      ∀ offset, 48 ≤ offset → offset < 64 → env.memory offset = 0
  | _ => True

def SameKind : Record B → Record B → Prop
  | .withdrawal _, .withdrawal _ => True
  | .header _, .header _ => True
  | .validator _, .validator _ => True
  | _, _ => False

end Record

theorem withdrawalHashTreeRoot_eq (withdrawal : Withdrawal) :
    (withdrawalHashTreeRoot withdrawal : B) = merkleize 2 (Record.withdrawal withdrawal : Record B).chunks := by
  rw [withdrawalHashTreeRoot]
  simp only [BeaconOracle.toLittleEndian_chunk, leftAligned_chunk]
  rfl

/-- The zero nodes of the header are the chunks that fill up its fields. -/
theorem beaconHeaderHashTreeRoot_eq (header : BeaconBlockHeader B) :
    beaconHeaderHashTreeRoot header = merkleize 3 (Record.header header).chunks := by
  rw [beaconHeaderHashTreeRoot]
  simp only [BeaconOracle.toLittleEndian_chunk]
  exact BeaconOracle.hashLevels_eq 2 _ le_rfl

/-- The hash tree root of a record is the SSZ root of its chunks. -/
theorem Record.hashTreeRoot_eq {env : Env B} {record : Record B} (regular : record.Regular env) :
    record.hashTreeRoot env = merkleize record.depth record.chunks := by
  cases record with
  | withdrawal withdrawal => exact withdrawalHashTreeRoot_eq withdrawal
  | header header => exact beaconHeaderHashTreeRoot_eq header
  | validator validator =>
      obtain ⟨length, padded⟩ := regular
      rw [Record.hashTreeRoot, SSZ.validatorHashTreeRoot, BeaconOracle.validatorHashTreeRoot_eq,
        BeaconOracle.memoryChunks_eq length padded]
      rfl

section Binding

variable [CollisionFree B]

/-- Records of one kind with one root have the same chunks. -/
theorem chunks_of_root {depth : ℕ} {chunks others : List B} (same : merkleize depth chunks = merkleize depth others)
    {i : ℕ} (inside : i < 2 ^ depth) : chunks.getD i zero = others.getD i zero :=
  BalancedTree.root_injective CollisionFree.sha256_injective depth same i inside

theorem uint64_of_word {x y : Uint64} (same : (word (chunk (uint64Bytes x)) : B) = word (chunk (uint64Bytes y))) :
    x = y := BeaconOracle.uint64Chunk_injective (CollisionFree.word_injective same)

theorem beaconHeaderHashTreeRoot_injective :
    Function.Injective (beaconHeaderHashTreeRoot : BeaconBlockHeader B → B) := by
  rintro ⟨slot, proposerIndex, parentRoot, stateRoot, bodyRoot⟩ ⟨_, _, _, _, _⟩ same
  rw [beaconHeaderHashTreeRoot_eq, beaconHeaderHashTreeRoot_eq] at same
  have field {i : ℕ} (inside : i < 2 ^ 3) := chunks_of_root same inside
  obtain rfl := uint64_of_word (field (by decide : 0 < 8))
  obtain rfl := uint64_of_word (field (by decide : 1 < 8))
  obtain rfl : parentRoot = _ := field (by decide : 2 < 8)
  obtain rfl : stateRoot = _ := field (by decide : 3 < 8)
  obtain rfl : bodyRoot = _ := field (by decide : 4 < 8)
  rfl

theorem withdrawalHashTreeRoot_injective : Function.Injective (withdrawalHashTreeRoot : Withdrawal → B) := by
  rintro ⟨index, validatorIndex, address, amount⟩ ⟨_, _, _, _⟩ same
  rw [withdrawalHashTreeRoot_eq, withdrawalHashTreeRoot_eq] at same
  have field {i : ℕ} (inside : i < 2 ^ 2) := chunks_of_root same inside
  have addresses := CollisionFree.word_injective (field (by decide : 2 < 4))
  obtain rfl := uint64_of_word (field (by decide : 0 < 4))
  obtain rfl := uint64_of_word (field (by decide : 1 < 4))
  obtain rfl := leftAligned_injective ((leftAligned_chunk address).trans (addresses.trans (leftAligned_chunk _).symm))
  obtain rfl := uint64_of_word (field (by decide : 3 < 4))
  rfl

theorem validatorHashTreeRoot_injective {env env' : Env B} {validator other : BeaconChainValidator}
    (regular : (Record.validator validator).Regular env) (also : (Record.validator other).Regular env')
    (same : SSZ.validatorHashTreeRoot env validator = SSZ.validatorHashTreeRoot env' other) : validator = other := by
  have roots := (Record.hashTreeRoot_eq regular).symm.trans (same.trans (Record.hashTreeRoot_eq also))
  have field {i : ℕ} (inside : i < 2 ^ 3) := chunks_of_root roots inside
  obtain ⟨pubkey, credentials, balance, slashed, eligibility, activation, leaves, withdrawable⟩ := validator
  obtain ⟨_, _, _, _, _, _, _, _⟩ := other
  obtain rfl := pubkeyRoot_injective regular.1 also.1 (field (by decide : 0 < 8))
  obtain rfl := CollisionFree.word_injective (field (by decide : 1 < 8))
  obtain rfl := uint64_of_word (field (by decide : 2 < 8))
  obtain rfl := BeaconOracle.boolChunk_injective (CollisionFree.word_injective (field (by decide : 3 < 8)))
  obtain rfl := uint64_of_word (field (by decide : 4 < 8))
  obtain rfl := uint64_of_word (field (by decide : 5 < 8))
  obtain rfl := uint64_of_word (field (by decide : 6 < 8))
  obtain rfl := uint64_of_word (field (by decide : 7 < 8))
  rfl

/-- Two records of one kind with one hash tree root are the same record, public keys included. -/
theorem roots_bind_records {env env' : Env B} {record other : Record B} (regular : record.Regular env)
    (also : other.Regular env') (kind : record.SameKind other)
    (same : record.hashTreeRoot env = other.hashTreeRoot env') : record = other := by
  cases record <;> cases other <;> try exact kind.elim
  case withdrawal.withdrawal => exact congrArg Record.withdrawal (withdrawalHashTreeRoot_injective same)
  case header.header => exact congrArg Record.header (beaconHeaderHashTreeRoot_injective same)
  case validator.validator => exact congrArg Record.validator (validatorHashTreeRoot_injective regular also same)

end Binding

/-- The validator 7 proposes the slot 3. -/
def sampleHeader : BeaconBlockHeader Term := ⟨3, 7, .word 10, .word 11, .word 12⟩

/-- This memory is zero only up to the end of the second chunk of a public key. -/
def laterMemory : Env Term := { Env.answering 5 6 (Term.word 0) with memory := fun offset => if offset < 64 then 0 else 1 }

/-- A validator has one root in two memories, and with another public key it has another root. -/
theorem sampleValidator_bound :
    Record.validator { BeaconChainValidator.sample 32000000000 5 with
      pubkey := List.replicate 40 0xaa ++ List.replicate 8 0xaa } =
      (.validator (.sample 32000000000 5) : Record Term) ∧
    SSZ.validatorHashTreeRoot laterMemory { BeaconChainValidator.sample 32000000000 5 with
      pubkey := List.replicate 48 0xab } ≠
      SSZ.validatorHashTreeRoot (.answering 0 0 (Term.word 0)) (.sample 32000000000 5) := by
  have padded (offset : ℕ) (_ : 48 ≤ offset) (high : offset < 64) : laterMemory.memory offset = 0 := if_pos high
  constructor
  · exact @roots_bind_records Term _ _ laterMemory (.answering 0 0 (Term.word 0)) _ _ ⟨rfl, padded⟩
      ⟨rfl, fun _ _ _ => rfl⟩ trivial (by decide +kernel)
  · intro same
    have bound := @roots_bind_records Term _ _ laterMemory (.answering 0 0 (Term.word 0))
      (.validator { BeaconChainValidator.sample 32000000000 5 with pubkey := List.replicate 48 0xab })
      (.validator (.sample 32000000000 5)) ⟨rfl, padded⟩ ⟨rfl, fun _ _ _ => rfl⟩ trivial same
    exact absurd (congrArg BeaconChainValidator.pubkey (Record.validator.inj bound)) (by decide)

section Fields

open Merkle GIndex

/-- The siblings of the index of a path lead from the root of the part behind the path to the root of the tree. -/
theorem calculateMerkleRoot_locate {tree found : NestedTree B} {path : List ℕ} {k : ℕ}
    (located : tree.locate path = some (k, found)) (fits : k < 2 ^ 256) :
    calculateMerkleRoot (branch (tree.label sha256) k) (found.root sha256) k = .ok (tree.root sha256) := by
  have positive : 0 < k := NestedTree.locate_positive located
  have part : found.root sha256 = tree.label sha256 k := (NestedTree.label_index sha256 located).symm
  rw [part, ← tree.label_one sha256]
  exact calculateMerkleRoot_branch positive fits (NestedTree.hashed_above sha256 located)

variable [DecidableEq B]

theorem verifyProof_ok {memory : Word → B} {proof : List B} {root leaf : B} {index : Word}
    (positive : 0 < index.toNat) :
    verifyProof memory proof root leaf index = .ok true ↔ calculateMerkleRoot proof leaf index.toNat = .ok root := by
  rw [verifyProof_eq, calculateMerkleRoot_ok positive index.isLt]
  by_cases top : index.toNat / 2 ^ proof.length = 1
  · rw [if_pos top]
    simp [(div_eq_one.mp top).2]
  · have other : proof.length ≠ index.toNat.log2 := fun same => top (div_eq_one.mpr ⟨positive, same⟩)
    rw [if_neg top]
    split_ifs <;> simp [other]

/-- At the index of a path the verifier accepts the root of the part behind the path, and nothing else. -/
theorem verifyProof_locate [CollisionFree B] {tree found : NestedTree B} {path : List ℕ} {k : ℕ}
    (located : tree.locate path = some (k, found)) (fits : k < 2 ^ 256) (leaf : B) (memory : Word → B) :
    (∃ proof, verifyProof memory proof (tree.root sha256) leaf (BitVec.ofNat 256 k) = .ok true) ↔
      leaf = found.root sha256 := by
  have index : (BitVec.ofNat 256 k).toNat = k := by rw [BitVec.toNat_ofNat, Nat.mod_eq_of_lt fits]
  have positive : 0 < k := NestedTree.locate_positive located
  simp only [verifyProof_ok (index ▸ positive), index]
  constructor
  · rintro ⟨proof, verified⟩
    rw [← tree.label_one sha256] at verified
    rw [← NestedTree.label_index sha256 located]
    exact calculateMerkleRoot_agrees positive fits (NestedTree.hashed_above sha256 located) verified
  · rintro rfl
    exact ⟨_, calculateMerkleRoot_locate located fits⟩

/-- The verifier accepts a chunk at a place of a record exactly when it is the chunk of that field, or the zero chunk
behind the last field. -/
theorem records_provable [CollisionFree B] {env : Env B} {record : Record B} (regular : record.Regular env) {i : ℕ}
    (inside : i < 2 ^ record.depth) (leaf : B) (memory : Word → B) :
    (∃ proof, verifyProof memory proof (record.hashTreeRoot env) leaf (BitVec.ofNat 256 (2 ^ record.depth + i)) =
        .ok true) ↔ leaf = record.chunks.getD i zero := by
  have fits : 2 ^ record.depth + i < 2 ^ 256 := by
    have shallow : 2 ^ record.depth ≤ 2 ^ 3 :=
      Nat.pow_le_pow_right (by decide) (by cases record <;> simp [Record.depth])
    omega
  have located : (NestedTree.parts record.depth fun j => .chunk (record.chunks.getD j zero)).locate [i] =
      some (2 ^ record.depth + i, .chunk (record.chunks.getD i zero)) :=
    NestedTree.locate_cons.mpr ⟨inside, 1, NestedTree.locate_nil _, compose_one⟩
  rw [Record.hashTreeRoot_eq regular]
  exact verifyProof_locate located fits leaf memory

/-- The proposer of the header has a branch to the root. -/
theorem sampleHeader_proposer : ∃ proof, verifyProof (fun _ => Term.word 0) proof
    (beaconHeaderHashTreeRoot sampleHeader) (word (chunk (uint64Bytes 7))) 9 = .ok true := by
  have provable := @records_provable Term _ _ _ (.answering 0 0 (Term.word 0)) (.header sampleHeader) trivial 1
    (by decide) (word (chunk (uint64Bytes 7))) fun _ => Term.word 0
  exact provable.mpr rfl

end Fields

end SSZ

end SmoothlyPool
