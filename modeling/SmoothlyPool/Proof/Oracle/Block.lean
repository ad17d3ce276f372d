import SmoothlyPool.Proof.Merkle.Bundle
import SmoothlyPool.Proof.Oracle.FeeRecipient
import SmoothlyPool.Proof.Oracle.ValidatorList
import SmoothlyPool.Proof.Oracle.ValidatorRoot

namespace SmoothlyPool

open Bytes32 Checked GIndex Merkle BlockTree BeaconOracle

/-- This is the node of one element of the validator list. -/
def memberIndex (i : ℕ) : ℕ := VALIDATORS * 2 ^ VALIDATORS_DEPTH + i

/-- A block carries its proposer, its fee recipient and the validators of its state.
The list is filled up with zero chunks. -/
structure BeaconBlock (B : Type) [Bytes32 B] extends BlockTree B where
  proposerIndex : Uint64
  feeRecipient : Address
  validators : List BeaconChainValidator
  proposer_node : node PROPOSER_INDEX = word (chunk (uint64Bytes proposerIndex))
  feeRecipient_node : node FEE_RECIPIENT = word (leftAligned feeRecipient)
  validators_length : validators.length ≤ 2 ^ VALIDATORS_DEPTH
  pubkey_length : ∀ validator ∈ validators, validator.pubkey.length = 48
  member_node : ∀ i (inside : i < validators.length),
    node (memberIndex i) = merkleize 3 (fieldChunks validators[i])
  vacant_node : ∀ i, validators.length ≤ i → i < 2 ^ VALIDATORS_DEPTH → node (memberIndex i) = zero

section Contents

variable {B : Type} [Bytes32 B]

/-- These are the contents of the fields.  The other fields are zero. -/
def fieldOf (proposerIndex : Uint64) (feeRecipient : Address) (validators : List BeaconChainValidator) (k : ℕ) : B :=
  if k = PROPOSER_INDEX then word (chunk (uint64Bytes proposerIndex))
  else if k = FEE_RECIPIENT then word (leftAligned feeRecipient)
  else if memberIndex 0 ≤ k then (validators[k - memberIndex 0]?).elim zero fun validator =>
    merkleize 3 (fieldChunks validator)
  else zero

theorem node_ofFields (field : ℕ → B) {k : ℕ} (leaf : ¬ Composite k) : (ofFields field).node k = field k := by
  show nodeOf field k = field k
  rw [nodeOf, dif_neg leaf]

/-- The elements of the list lie below all composite nodes. -/
theorem not_composite_member (i : ℕ) : ¬ Composite (memberIndex i) := by
  have shape : ∀ container ∈ containers,
      (container.1 + 1) * 2 ^ (container.2 - 1) ≤ VALIDATORS * 2 ^ VALIDATORS_DEPTH := by
    decide
  rintro ⟨⟨root, depth⟩, listed, height, low, same⟩
  have small : (root + 1) * 2 ^ (depth - 1) ≤ VALIDATORS * 2 ^ VALIDATORS_DEPTH := shape _ listed
  have power : 2 ^ height ≤ 2 ^ (depth - 1) := Nat.pow_le_pow_right (by omega) (Nat.le_sub_one_of_lt low)
  have below : memberIndex i < (root + 1) * 2 ^ height :=
    (Nat.div_lt_iff_lt_mul (Nat.two_pow_pos height)).mp (same.trans_lt (Nat.lt_succ_self root))
  have inside := below.trans_le ((Nat.mul_le_mul_left _ power).trans small)
  rw [memberIndex] at inside
  omega

theorem fieldOf_member (proposerIndex : Uint64) (feeRecipient : Address) (validators : List BeaconChainValidator)
    (i : ℕ) : (fieldOf proposerIndex feeRecipient validators (memberIndex i) : B) =
      (validators[i]?).elim zero fun validator => merkleize 3 (fieldChunks validator) := by
  have base : VALIDATORS * 2 ^ VALIDATORS_DEPTH = 726 * 2 ^ 40 := rfl
  have first : memberIndex i ≠ PROPOSER_INDEX := by
    rw [memberIndex, base, PROPOSER_INDEX]
    omega
  have second : memberIndex i ≠ FEE_RECIPIENT := by
    rw [memberIndex, base, FEE_RECIPIENT]
    omega
  have behind : memberIndex 0 ≤ memberIndex i := Nat.le_add_right _ _
  have place : memberIndex i - memberIndex 0 = i := Nat.add_sub_cancel_left ..
  rw [fieldOf, if_neg first, if_neg second, if_pos behind, place]

/-- Every contents give a block. -/
def BeaconBlock.ofContents (proposerIndex : Uint64) (feeRecipient : Address) (validators : List BeaconChainValidator)
    (short : validators.length ≤ 2 ^ VALIDATORS_DEPTH)
    (pubkeys : ∀ validator ∈ validators, validator.pubkey.length = 48) : BeaconBlock B where
  toBlockTree := ofFields (fieldOf proposerIndex feeRecipient validators)
  proposerIndex := proposerIndex
  feeRecipient := feeRecipient
  validators := validators
  proposer_node := node_ofFields _ (by decide)
  feeRecipient_node := node_ofFields _ (by decide)
  validators_length := short
  pubkey_length := pubkeys
  member_node i inside := by
    rw [node_ofFields _ (not_composite_member i), fieldOf_member, List.getElem?_eq_getElem inside]
    rfl
  vacant_node i outside _ := by
    rw [node_ofFields _ (not_composite_member i), fieldOf_member, List.getElem?_eq_none outside]
    rfl

end Contents

section Member

variable {i : ℕ}

theorem memberIndex_eq (i : ℕ) : memberIndex i = Pool.ZERO_VALIDATOR_INDEX + i := by
  have base : Pool.ZERO_VALIDATOR_INDEX = VALIDATORS * 2 ^ VALIDATORS_DEPTH := by decide
  rw [memberIndex, base]

theorem memberIndex_bounds (short : i < 2 ^ VALIDATORS_DEPTH) : 0 < memberIndex i ∧ memberIndex i < 2 ^ 50 := by
  have base : VALIDATORS * 2 ^ VALIDATORS_DEPTH = 726 * 2 ^ 40 := rfl
  have limit : 2 ^ VALIDATORS_DEPTH = 2 ^ 40 := rfl
  rw [memberIndex, base]
  rw [limit] at short
  omega

/-- The nodes above an element of the list are composite. -/
theorem member_hashed {B : Type} [Bytes32 B] (block : BlockTree B) (short : i < 2 ^ VALIDATORS_DEPTH) :
    ∀ height, 0 < height → height ≤ (memberIndex i).log2 →
      HashedAt sha256 block.node (memberIndex i / 2 ^ height) := by
  intro height above below
  obtain ⟨positive, small⟩ := memberIndex_bounds short
  have depth : (memberIndex i).log2 < 50 := (Nat.log2_lt positive.ne').mpr small
  have inside : memberIndex i / 2 ^ VALIDATORS_DEPTH = VALIDATORS := by
    rw [memberIndex, Nat.mul_comm, Nat.mul_add_div (Nat.two_pow_pos _), Nat.div_eq_of_lt short, Nat.add_zero]
  exact block.hashed _ (composite_member inside above (by omega))

variable {B : Type} [Bytes32 B] {env : Env B} {block : BeaconBlock B} {record : BeaconChainValidator}
  {validatorIndex : Uint64}

theorem validatorGIndex_member (short : validatorIndex.toNat < 2 ^ VALIDATORS_DEPTH) :
    Pool.validatorGIndex validatorIndex = .ok (memberIndex validatorIndex.toNat) := by
  obtain ⟨_, small⟩ := memberIndex_bounds short
  rw [memberIndex_eq] at small ⊢
  exact validatorGIndex_ok.mpr ⟨small.trans (by decide), rfl⟩

/-- A record has the fields of another one, up to the public key. -/
def SameFields (record validator : BeaconChainValidator) : Prop :=
  record = { validator with pubkey := record.pubkey }

/-- The root of the record in memory fixes its fields. -/
theorem sameFields_of_root [CollisionFree B] {validator : BeaconChainValidator}
    (same : (validatorHashTreeRoot env record : B) = merkleize 3 (fieldChunks validator)) :
    SameFields record validator := by
  rw [validatorHashTreeRoot_eq] at same
  have chunks := BalancedTree.root_injective CollisionFree.sha256_injective 3 same
  have field (j : ℕ) (inside : j < 8) {x y : Word} (left : (memoryChunks env record : List B).getD j zero = word x)
      (right : (fieldChunks validator : List B).getD j zero = word y) : x = y := by
    apply CollisionFree.word_injective (B := B)
    rw [← left, ← right]
    exact chunks j inside
  obtain ⟨pubkey, credentials, balance, slashed, eligibility, activation, exit, withdrawable⟩ := record
  simp only [SameFields, BeaconChainValidator.mk.injEq, true_and]
  exact ⟨field 1 (by decide) rfl rfl, uint64Chunk_injective (field 2 (by decide) rfl rfl),
    boolChunk_injective (field 3 (by decide) rfl rfl), uint64Chunk_injective (field 4 (by decide) rfl rfl),
    uint64Chunk_injective (field 5 (by decide) rfl rfl), uint64Chunk_injective (field 6 (by decide) rfl rfl),
    uint64Chunk_injective (field 7 (by decide) rfl rfl)⟩

variable [DecidableEq B]

/-- The siblings of a member are an accepted proof of its record. -/
theorem verifyValidator_branch {ts : Uint64} (root : env.beaconRoots ts = some (block.node 1))
    (padded : ∀ offset, 48 ≤ offset → offset < 64 → env.memory offset = 0) (inside : i < block.validators.length) :
    verifyValidator env (branch block.node (memberIndex i)) block.validators[i] (memberIndex i) ts = .ok true := by
  have short := inside.trans_le block.validators_length
  obtain ⟨positive, small⟩ := memberIndex_bounds short
  have computed := @calculateMerkleRoot_branch B _ block.node _ positive (small.trans (by norm_num))
    (member_hashed block.toBlockTree short)
  have leaf : validatorHashTreeRoot env block.validators[i] = block.node (memberIndex i) := by
    rw [validatorHashTreeRoot_eq, memoryChunks_eq (block.pubkey_length _ (List.getElem_mem inside)) padded,
      block.member_node i inside]
  rw [← leaf] at computed
  exact verifyValidator_of_root root computed

/-- An accepted proof for a member shows the record of the block.
No record hashes to the zero chunk, so the place is not vacant. -/
theorem verifyValidator_listed [CollisionFree B] {proof : List B} {ts : Uint64} {verified : Bool}
    (nonzero : ∀ left right : B, sha256 left right ≠ zero) (root : env.beaconRoots ts = some (block.node 1))
    (short : i < 2 ^ VALIDATORS_DEPTH)
    (accepted : verifyValidator env proof record (memberIndex i) ts = .ok verified) :
    ∃ validator, block.validators[i]? = some validator ∧ SameFields record validator := by
  obtain ⟨blockRoot, found, computed⟩ := verifyValidator_ok accepted
  obtain rfl : block.node 1 = blockRoot := Option.some.inj (root.symm.trans found)
  obtain ⟨positive, small⟩ := memberIndex_bounds short
  have leaf := calculateMerkleRoot_agrees positive (small.trans (by norm_num))
    (member_hashed block.toBlockTree short) computed
  by_cases inside : i < block.validators.length
  · rw [block.member_node i inside] at leaf
    exact ⟨_, List.getElem?_eq_getElem inside, sameFields_of_root leaf⟩
  · rw [block.vacant_node i (Nat.le_of_not_lt inside) short, validatorHashTreeRoot_eq] at leaf
    exact absurd leaf (nonzero _ _)

end Member

section FeeRecipient

variable {B : Type} [Bytes32 B] [DecidableEq B]

/-- The labels at the positions of the proposer and of the fee recipient verify with their helpers. -/
theorem verifyFeeRecipient_block {env : Env B} {block : BeaconBlock B} {timestamp : Uint64} {helpers : List ℕ}
    (root : env.beaconRoots timestamp = some (block.node 1))
    (built : getHelperIndices [PROPOSER_INDEX, FEE_RECIPIENT] = .ok helpers) :
    ∃ map, verifyFeeRecipient env [PROPOSER_INDEX, FEE_RECIPIENT] (helpers.map block.node)
      (block.proposerIndex.setWidth 256) block.feeRecipient timestamp .empty = .ok (true, map) := by
  obtain ⟨others, same, completes⟩ := getHelperIndices_ok [PROPOSER_INDEX, FEE_RECIPIENT]
  obtain rfl := Except.ok.inj (same.symm.trans built)
  have hashed : ∀ k, 1 ≤ k → Interior [PROPOSER_INDEX, FEE_RECIPIENT] k → HashedAt sha256 block.node k := by
    rintro k positive ⟨index, listed, above, proper⟩
    rcases List.mem_pair.mp listed with rfl | rfl
    · exact block.hashed k (composite_of_above 4 (by decide) (by decide) positive above proper)
    · exact block.hashed k (composite_of_above 13 (by decide) (by decide) positive above proper)
  obtain ⟨map, computed⟩ := calculateMultiMerkleRoot_labels block.node built completes hashed
    ⟨PROPOSER_INDEX, by simp, by decide⟩
  have leaves : [PROPOSER_INDEX, FEE_RECIPIENT].map block.node =
      [word (toLittleEndian (block.proposerIndex.setWidth 256)), word (leftAligned block.feeRecipient)] := by
    rw [List.map_cons, List.map_singleton, block.proposer_node, block.feeRecipient_node, toLittleEndian_chunk]
  rw [leaves] at computed
  exact ⟨map, verifyFeeRecipient_ok.mpr ⟨rfl, _, root, computed⟩⟩

end FeeRecipient

end SmoothlyPool
