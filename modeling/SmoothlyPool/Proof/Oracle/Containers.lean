import SmoothlyPool.Library.NestedTree
import SmoothlyPool.Proof.Oracle.Block
import SmoothlyPool.Proof.Oracle.Records

namespace SmoothlyPool.Consensus

open Bytes32 GIndex NestedTree

def MAX_WITHDRAWALS_PER_PAYLOAD : ℕ := 16

def VALIDATOR_REGISTRY_LIMIT : ℕ := 1099511627776

section Trees

variable {B : Type} [Bytes32 B]

/-- A number of leaves takes the levels of the next power of two. -/
def levels (count : ℕ) : ℕ := if count ≤ 1 then 0 else (count - 1).log2 + 1

/-- Zero chunks fill up the parts. -/
def container (fields : List (NestedTree B)) : NestedTree B :=
  .parts (levels fields.length) fun i => fields.getD i (.chunk zero)

def uint64 (x : Uint64) : NestedTree B := .chunk (word (SmoothlyPool.chunk (uint64Bytes x)))

def boolean (x : Bool) : NestedTree B := .chunk (word (SmoothlyPool.chunk [if x then 1 else 0]))

/-- A list has the levels of its limit, and its length is mixed in. -/
def list (limit : ℕ) (items : List (NestedTree B)) : NestedTree B :=
  container [.parts (levels limit) fun i => items.getD i (.chunk zero), uint64 (BitVec.ofNat 64 items.length)]

theorem le_levels (count : ℕ) : count ≤ 2 ^ levels count := by
  rw [levels]
  split_ifs with few
  · exact few
  · have high : count - 1 < 2 ^ ((count - 1).log2 + 1) := Nat.lt_log2_self
    omega

variable {fields : List (NestedTree B)} {n depth : ℕ}

theorem container_eq (height : levels n = depth) (count : fields.length = n) :
    container fields = .parts depth fun i => fields.getD i (.chunk zero) := by
  rw [container, count, height]

/-- The root of a container is the SSZ root of the roots of its fields. -/
theorem container_root (height : levels n = depth) (count : fields.length = n) :
    (container fields).root sha256 = merkleize depth (fields.map (root sha256)) := by
  rw [container_eq height count, root, merkleize]
  apply BalancedTree.root_congr
  intro i _
  simp only [List.getD_eq_getElem?_getD, List.getElem?_map]
  cases fields[i]? <;> rfl

/-- A path into a field begins with the position of the field. -/
theorem locate_container (height : levels n = depth) (count : fields.length = n) {i k inner : ℕ}
    {field found : NestedTree B} {path : List ℕ} (listed : fields[i]? = some field) (located : field.locate path = some (inner, found))
    (index : compose (2 ^ depth + i) inner = k) : (container fields).locate (i :: path) = some (k, found) := by
  obtain ⟨inside, _⟩ := List.getElem?_eq_some_iff.mp listed
  have fits : i < 2 ^ depth := by
    rw [← height, ← count]
    exact inside.trans_le (le_levels fields.length)
  have part : fields.getD i (.chunk zero) = field := by rw [List.getD_eq_getElem?_getD, listed, Option.getD_some]
  rw [container_eq height count]
  exact locate_cons.mpr ⟨fits, inner, by rw [part, located], index⟩

theorem located_container {tree : NestedTree B} {path : List ℕ} {k : ℕ}
    (located : tree.locate path = some (k, container fields)) (height : levels n = depth)
    (count : fields.length = n) : ∃ path part, tree.locate path = some (k, .parts depth part) :=
  ⟨path, _, by rw [located, container_eq height count]⟩

end Trees

/-- A field of any other composite type is given by its tree. -/
structure ExecutionPayload (B : Type) where
  parentHash : B
  feeRecipient : Address
  stateRoot : B
  receiptsRoot : B
  logsBloom : NestedTree B
  prevRandao : B
  blockNumber : Uint64
  gasLimit : Uint64
  gasUsed : Uint64
  timestamp : Uint64
  extraData : NestedTree B
  baseFeePerGas : Word
  blockHash : B
  transactions : NestedTree B
  withdrawals : List SSZ.Withdrawal
  withdrawals_length : withdrawals.length ≤ MAX_WITHDRAWALS_PER_PAYLOAD
  blobGasUsed : Uint64
  excessBlobGas : Uint64

structure BeaconBlockBody (B : Type) where
  randaoReveal : NestedTree B
  eth1Data : NestedTree B
  graffiti : B
  proposerSlashings : NestedTree B
  attesterSlashings : NestedTree B
  attestations : NestedTree B
  deposits : NestedTree B
  voluntaryExits : NestedTree B
  syncAggregate : NestedTree B
  executionPayload : ExecutionPayload B
  blsToExecutionChanges : NestedTree B
  blobKzgCommitments : NestedTree B

structure BeaconBlock (B : Type) where
  slot : Uint64
  proposerIndex : Uint64
  parentRoot : B
  stateRoot : B
  body : BeaconBlockBody B

structure BeaconState (B : Type) where
  genesisTime : Uint64
  genesisValidatorsRoot : B
  slot : Uint64
  fork : NestedTree B
  latestBlockHeader : SSZ.BeaconBlockHeader B
  blockRoots : NestedTree B
  stateRoots : NestedTree B
  historicalRoots : NestedTree B
  eth1Data : NestedTree B
  eth1DataVotes : NestedTree B
  eth1DepositIndex : Uint64
  validators : List BeaconChainValidator
  validators_length : validators.length ≤ VALIDATOR_REGISTRY_LIMIT
  pubkey_length : ∀ validator ∈ validators, validator.pubkey.length = 48
  balances : NestedTree B
  randaoMixes : NestedTree B
  slashings : NestedTree B
  previousEpochParticipation : NestedTree B
  currentEpochParticipation : NestedTree B
  justificationBits : B
  previousJustifiedCheckpoint : NestedTree B
  currentJustifiedCheckpoint : NestedTree B
  finalizedCheckpoint : NestedTree B
  inactivityScores : NestedTree B
  currentSyncCommittee : NestedTree B
  nextSyncCommittee : NestedTree B
  latestExecutionPayloadHeader : NestedTree B
  nextWithdrawalIndex : Uint64
  nextWithdrawalValidatorIndex : Uint64
  historicalSummaries : NestedTree B

/-- This block carries its state, and only the root of its body. -/
structure BeaconBlockState (B : Type) where
  slot : Uint64
  proposerIndex : Uint64
  parentRoot : B
  beaconState : BeaconState B
  bodyRoot : B

variable {B : Type} [Bytes32 B]

def withdrawalTree (withdrawal : SSZ.Withdrawal) : NestedTree B := container [
  uint64 withdrawal.index,
  uint64 withdrawal.validatorIndex,
  .chunk (word (SmoothlyPool.chunk (addressBytes withdrawal.address))),
  uint64 withdrawal.amount]

def validatorTree (validator : BeaconChainValidator) : NestedTree B := container [
  container [.chunk (word (SmoothlyPool.chunk (validator.pubkey.take 32))),
    .chunk (word (SmoothlyPool.chunk (validator.pubkey.drop 32)))],
  .chunk (word validator.withdrawalCredentials),
  uint64 validator.effectiveBalance,
  boolean validator.slashed,
  uint64 validator.activationEligibilityEpoch,
  uint64 validator.activationEpoch,
  uint64 validator.exitEpoch,
  uint64 validator.withdrawableEpoch]

def headerTree (header : SSZ.BeaconBlockHeader B) : NestedTree B := container [
  uint64 header.slot,
  uint64 header.proposerIndex,
  .chunk header.parentRoot,
  .chunk header.stateRoot,
  .chunk header.bodyRoot]

def ExecutionPayload.tree (payload : ExecutionPayload B) : NestedTree B := container [
  .chunk payload.parentHash,
  .chunk (word (SmoothlyPool.chunk (addressBytes payload.feeRecipient))),
  .chunk payload.stateRoot,
  .chunk payload.receiptsRoot,
  payload.logsBloom,
  .chunk payload.prevRandao,
  uint64 payload.blockNumber,
  uint64 payload.gasLimit,
  uint64 payload.gasUsed,
  uint64 payload.timestamp,
  payload.extraData,
  .chunk (word (toLittleEndian payload.baseFeePerGas)),
  .chunk payload.blockHash,
  payload.transactions,
  list MAX_WITHDRAWALS_PER_PAYLOAD (payload.withdrawals.map withdrawalTree),
  uint64 payload.blobGasUsed,
  uint64 payload.excessBlobGas]

def BeaconBlockBody.tree (body : BeaconBlockBody B) : NestedTree B := container [
  body.randaoReveal,
  body.eth1Data,
  .chunk body.graffiti,
  body.proposerSlashings,
  body.attesterSlashings,
  body.attestations,
  body.deposits,
  body.voluntaryExits,
  body.syncAggregate,
  body.executionPayload.tree,
  body.blsToExecutionChanges,
  body.blobKzgCommitments]

def BeaconBlock.tree (block : BeaconBlock B) : NestedTree B := container [
  uint64 block.slot,
  uint64 block.proposerIndex,
  .chunk block.parentRoot,
  .chunk block.stateRoot,
  block.body.tree]

def BeaconState.tree (state : BeaconState B) : NestedTree B := container [
  uint64 state.genesisTime,
  .chunk state.genesisValidatorsRoot,
  uint64 state.slot,
  state.fork,
  headerTree state.latestBlockHeader,
  state.blockRoots,
  state.stateRoots,
  state.historicalRoots,
  state.eth1Data,
  state.eth1DataVotes,
  uint64 state.eth1DepositIndex,
  list VALIDATOR_REGISTRY_LIMIT (state.validators.map validatorTree),
  state.balances,
  state.randaoMixes,
  state.slashings,
  state.previousEpochParticipation,
  state.currentEpochParticipation,
  .chunk state.justificationBits,
  state.previousJustifiedCheckpoint,
  state.currentJustifiedCheckpoint,
  state.finalizedCheckpoint,
  state.inactivityScores,
  state.currentSyncCommittee,
  state.nextSyncCommittee,
  state.latestExecutionPayloadHeader,
  uint64 state.nextWithdrawalIndex,
  uint64 state.nextWithdrawalValidatorIndex,
  state.historicalSummaries]

def BeaconBlockState.tree (block : BeaconBlockState B) : NestedTree B := container [
  uint64 block.slot,
  uint64 block.proposerIndex,
  .chunk block.parentRoot,
  block.beaconState.tree,
  .chunk block.bodyRoot]

def BeaconBlockBody.hashTreeRoot (body : BeaconBlockBody B) : B := body.tree.root sha256

def BeaconBlock.hashTreeRoot (block : BeaconBlock B) : B := block.tree.root sha256

def BeaconState.hashTreeRoot (state : BeaconState B) : B := state.tree.root sha256

def BeaconBlockState.hashTreeRoot (block : BeaconBlockState B) : B := block.tree.root sha256

/-- The block with its state in the place of the state root. -/
def BeaconBlock.withState (block : BeaconBlock B) (state : BeaconState B) : NestedTree B := container [
  uint64 block.slot,
  uint64 block.proposerIndex,
  .chunk block.parentRoot,
  state.tree,
  block.body.tree]

def BeaconBlock.header (block : BeaconBlock B) : SSZ.BeaconBlockHeader B where
  slot := block.slot
  proposerIndex := block.proposerIndex
  parentRoot := block.parentRoot
  stateRoot := block.stateRoot
  bodyRoot := block.body.hashTreeRoot

def BeaconBlock.blockState (block : BeaconBlock B) (state : BeaconState B) : BeaconBlockState B where
  slot := block.slot
  proposerIndex := block.proposerIndex
  parentRoot := block.parentRoot
  beaconState := state
  bodyRoot := block.body.hashTreeRoot

section Roots

variable {block : BeaconBlock B} {state : BeaconState B}

theorem headerTree_root (block : BeaconBlock B) : (headerTree block.header).root sha256 = block.hashTreeRoot := by
  rw [BeaconBlock.hashTreeRoot, BeaconBlock.tree, headerTree, container_root (by decide : levels 5 = 3) rfl,
    container_root (by decide : levels 5 = 3) rfl]
  rfl

theorem header_root (block : BeaconBlock B) : SSZ.beaconHeaderHashTreeRoot block.header = block.hashTreeRoot := by
  rw [SSZ.beaconHeaderHashTreeRoot_eq, BeaconBlock.hashTreeRoot, BeaconBlock.tree,
    container_root (by decide : levels 5 = 3) rfl]
  rfl

theorem withState_root (same : state.hashTreeRoot = block.stateRoot) :
    (block.withState state).root sha256 = block.hashTreeRoot := by
  rw [BeaconBlock.hashTreeRoot, BeaconBlock.tree, BeaconBlock.withState,
    container_root (by decide : levels 5 = 3) rfl, container_root (by decide : levels 5 = 3) rfl]
  simp only [List.map_cons, root, ← same]
  rfl

theorem blockState_root (same : state.hashTreeRoot = block.stateRoot) :
    (block.blockState state).hashTreeRoot = block.hashTreeRoot := by
  rw [BeaconBlock.hashTreeRoot, BeaconBlock.tree, BeaconBlockState.hashTreeRoot, BeaconBlockState.tree,
    container_root (by decide : levels 5 = 3) rfl, container_root (by decide : levels 5 = 3) rfl]
  simp only [List.map_cons, root, ← same]
  rfl

theorem validatorTree_root (validator : BeaconChainValidator) :
    (validatorTree validator : NestedTree B).root sha256 = merkleize 3 (fieldChunks validator) := by
  rw [validatorTree, container_root (by decide : levels 8 = 3) rfl, List.map_cons,
    container_root (by decide : levels 2 = 1) rfl]
  rfl

end Roots

section Paths

variable (block : BeaconBlock B) (state : BeaconState B)

/-- This is the path `["proposer_index"]`. -/
def proposerIndexPath : List ℕ := [1]

/-- This is the path `["body", "execution_payload", "fee_recipient"]`. -/
def feeRecipientPath : List ℕ := [4, 9, 1]

/-- This is the path `["state_root"]`, continued by `["validators", i]` in the state. -/
def validatorPath (i : ℕ) : List ℕ := [3, 11, 0, i]

theorem locate_proposerIndex : (block.withState state).locate proposerIndexPath =
    some (BlockTree.PROPOSER_INDEX, uint64 block.proposerIndex) :=
  locate_container (by decide : levels 5 = 3) rfl rfl (locate_nil _) (by decide)

theorem locate_state : (block.withState state).locate [3] = some (11, state.tree) :=
  locate_container (by decide : levels 5 = 3) rfl rfl (locate_nil _) (by decide)

theorem locate_body : (block.withState state).locate [4] = some (12, block.body.tree) :=
  locate_container (by decide : levels 5 = 3) rfl rfl (locate_nil _) (by decide)

theorem locate_executionPayload :
    (block.withState state).locate ([4] ++ [9]) = some (201, block.body.executionPayload.tree) :=
  locate_append (locate_body block state) (locate_container (by decide : levels 12 = 4) rfl rfl (locate_nil _) rfl)

theorem locate_feeRecipient : (block.withState state).locate feeRecipientPath =
    some (BlockTree.FEE_RECIPIENT,
      .chunk (word (SmoothlyPool.chunk (addressBytes block.body.executionPayload.feeRecipient)))) :=
  locate_append (locate_executionPayload block state)
    (locate_container (by decide : levels 17 = 5) rfl rfl (locate_nil _) rfl)

/-- The list of the validators lies below its length. -/
theorem locate_list : (block.withState state).locate ([3] ++ [11]) =
    some (363, list VALIDATOR_REGISTRY_LIMIT (state.validators.map validatorTree)) :=
  locate_append (locate_state block state) (locate_container (by decide : levels 28 = 5) rfl rfl (locate_nil _) rfl)

theorem locate_elements : (block.withState state).locate ([3] ++ [11] ++ [0]) =
    some (BlockTree.VALIDATORS, .parts BlockTree.VALIDATORS_DEPTH
      fun i => (state.validators.map validatorTree).getD i (.chunk zero)) := by
  have height : levels VALIDATOR_REGISTRY_LIMIT = BlockTree.VALIDATORS_DEPTH := by decide
  rw [← height]
  exact locate_append (locate_list block state)
    (locate_container (by decide : levels 2 = 1) rfl rfl (locate_nil _) rfl)

theorem locate_validator {i : ℕ} (inside : i < VALIDATOR_REGISTRY_LIMIT) :
    (block.withState state).locate (validatorPath i) =
      some (memberIndex i, (state.validators.map validatorTree).getD i (.chunk zero)) := by
  have place : memberIndex i = compose BlockTree.VALIDATORS (2 ^ BlockTree.VALIDATORS_DEPTH + i) := by
    rw [compose, BalancedTree.log2_leaf inside, Nat.add_sub_cancel_left, memberIndex]
  rw [place]
  exact locate_append (locate_elements block state) (locate_cons.mpr ⟨inside, 1, locate_nil _, compose_one⟩)

/-- Every container of the tree of a block stands in the block with its state. -/
theorem located_containers {k depth : ℕ} (listed : (k, depth) ∈ containers) :
    ∃ path part, (block.withState state).locate path = some (k, .parts depth part) := by
  simp only [containers, List.mem_cons, List.not_mem_nil, or_false, Prod.mk.injEq] at listed
  rcases listed with ⟨rfl, rfl⟩ | ⟨rfl, rfl⟩ | ⟨rfl, rfl⟩ | ⟨rfl, rfl⟩ | ⟨rfl, rfl⟩ | ⟨rfl, rfl⟩
  · exact located_container (locate_nil _) (by decide : levels 5 = 3) rfl
  · exact located_container (locate_state block state) (by decide : levels 28 = 5) rfl
  · exact located_container (locate_body block state) (by decide : levels 12 = 4) rfl
  · exact located_container (locate_executionPayload block state) (by decide : levels 17 = 5) rfl
  · exact located_container (locate_list block state) (by decide : levels 2 = 1) rfl
  · exact ⟨_, _, locate_elements block state⟩

end Paths

/-- A block and its state give the tree of the block and its contents. -/
def BeaconBlock.toTree (block : BeaconBlock B) (state : BeaconState B) : SmoothlyPool.BeaconBlock B where
  node := (block.withState state).label sha256
  hashed k composite := by
    obtain ⟨⟨top, depth⟩, listed, height, low, same⟩ := composite
    obtain ⟨path, part, located⟩ := located_containers block state listed
    obtain ⟨j, positive, level, rfl⟩ := exists_compose same
    exact hashed_locate sha256 located positive (hashed_parts sha256 part positive (level.trans_lt low))
  proposerIndex := block.proposerIndex
  feeRecipient := block.body.executionPayload.feeRecipient
  validators := state.validators
  proposer_node := label_index sha256 (locate_proposerIndex block state)
  feeRecipient_node := by
    rw [leftAligned_chunk]
    exact label_index sha256 (locate_feeRecipient block state)
  validators_length := state.validators_length
  pubkey_length := state.pubkey_length
  member_node i inside := by
    rw [label_index sha256 (locate_validator block state (inside.trans_le state.validators_length)),
      List.getD_eq_getElem?_getD, List.getElem?_map, List.getElem?_eq_getElem inside]
    exact validatorTree_root _
  vacant_node i outside inside := by
    rw [label_index sha256 (locate_validator block state inside), List.getD_eq_getElem?_getD, List.getElem?_map,
      List.getElem?_eq_none outside]
    rfl

theorem toTree_root {block : BeaconBlock B} {state : BeaconState B} (same : state.hashTreeRoot = block.stateRoot) :
    (block.toTree state).node 1 = block.hashTreeRoot :=
  (label_one sha256 _).trans (withState_root same)

end SmoothlyPool.Consensus
