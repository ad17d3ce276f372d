import SmoothlyPool.Proof.Oracle.Containers

namespace SmoothlyPool

open Bytes32 Checked GIndex Merkle BlockTree BeaconOracle

variable {B : Type} [Bytes32 B]

section Exact

variable [DecidableEq B] [CollisionFree B] {env : Env B} {block : BeaconBlock B} {ts : Uint64}

/-- The oracle accepts the proposer of the block together with its fee recipient, and nothing else. -/
theorem feeRecipient_exact (root : env.beaconRoots ts = some (block.node 1)) (validatorIndex : Word)
    (feeRecipient : Address) :
    (∃ proof map, verifyFeeRecipient env [PROPOSER_INDEX, FEE_RECIPIENT] proof validatorIndex feeRecipient ts
      .empty = .ok (true, map)) ↔ validatorIndex = block.proposerIndex.setWidth 256 ∧ feeRecipient = block.feeRecipient := by
  constructor
  · rintro ⟨proof, map, accepted⟩
    obtain ⟨proposer, recipient⟩ := sound_of_positions B env block.toBlockTree proof validatorIndex feeRecipient ts
      map root accepted
    rw [block.proposer_node, ← toLittleEndian_chunk] at proposer
    rw [block.feeRecipient_node] at recipient
    exact ⟨(toLittleEndian_injective (CollisionFree.word_injective proposer)).symm,
      (leftAligned_injective (CollisionFree.word_injective recipient)).symm⟩
  · rintro ⟨rfl, rfl⟩
    obtain ⟨helpers, built, _⟩ := getHelperIndices_ok [PROPOSER_INDEX, FEE_RECIPIENT]
    exact ⟨_, verifyFeeRecipient_block root built⟩

/-- The oracle accepts the validators of the block in their places, and nothing else. -/
theorem validator_exact (nonzero : ∀ left right : B, sha256 left right ≠ zero)
    (root : env.beaconRoots ts = some (block.node 1))
    (padded : ∀ offset, 48 ≤ offset → offset < 64 → env.memory offset = 0) {validatorIndex : Uint64}
    (short : validatorIndex.toNat < 2 ^ VALIDATORS_DEPTH) {record : BeaconChainValidator}
    (length : record.pubkey.length = 48) :
    (∃ gIndex proof, Pool.validatorGIndex validatorIndex = .ok gIndex ∧
      verifyValidator env proof record gIndex ts = .ok true) ↔
      block.validators[validatorIndex.toNat]? = some record := by
  have located := validatorGIndex_member short
  obtain ⟨positive, small⟩ := memberIndex_bounds short
  constructor
  · rintro ⟨gIndex, proof, computed, accepted⟩
    obtain rfl := Except.ok.inj (located.symm.trans computed)
    obtain ⟨validator, listed, _⟩ := verifyValidator_listed nonzero root short accepted
    obtain ⟨inside, rfl⟩ := List.getElem?_eq_some_iff.mp listed
    have also := block.pubkey_length _ (List.getElem_mem inside)
    obtain ⟨blockRoot, found, climbs⟩ := verifyValidator_ok accepted
    obtain rfl : block.node 1 = blockRoot := Option.some.inj (root.symm.trans found)
    have leaf := calculateMerkleRoot_agrees positive (small.trans (by norm_num))
      (member_hashed block.toBlockTree short) climbs
    rw [block.member_node _ inside, ← memoryChunks_eq also padded, ← validatorHashTreeRoot_eq] at leaf
    rw [listed, SSZ.validatorHashTreeRoot_injective ⟨length, padded⟩ ⟨also, padded⟩ leaf]
  · intro listed
    obtain ⟨inside, rfl⟩ := List.getElem?_eq_some_iff.mp listed
    exact ⟨_, _, located, verifyValidator_branch root padded inside⟩

end Exact

namespace Consensus

variable {block : BeaconBlock B} {state : BeaconState B}

/-- All forms of a block have the root of its header. -/
theorem form_root (same : state.hashTreeRoot = block.stateRoot) {tree : NestedTree B}
    (form : tree ∈ [headerTree block.header, block.tree, (block.blockState state).tree, block.withState state]) :
    tree.root sha256 = SSZ.beaconHeaderHashTreeRoot block.header := by
  simp only [List.mem_cons, List.not_mem_nil, or_false] at form
  rw [header_root]
  rcases form with rfl | rfl | rfl | rfl
  · exact headerTree_root block
  · rfl
  · exact blockState_root same
  · exact withState_root same

/-- The oracle accepts a validator at the end of every path. -/
theorem verifyValidator_locate [DecidableEq B] {env : Env B} {ts : Uint64} {tree : NestedTree B} {path : List ℕ}
    {gIndex : ℕ} {validator : BeaconChainValidator}
    (located : tree.locate path = some (gIndex, validatorTree validator)) (fits : gIndex < 2 ^ 256)
    (root : env.beaconRoots ts = some (tree.root sha256)) (length : validator.pubkey.length = 48)
    (padded : ∀ offset, 48 ≤ offset → offset < 64 → env.memory offset = 0) :
    verifyValidator env (branch (tree.label sha256) gIndex) validator gIndex ts = .ok true := by
  have leaf : validatorHashTreeRoot env validator = (validatorTree validator).root sha256 := by
    rw [validatorHashTreeRoot_eq, memoryChunks_eq length padded, validatorTree_root]
  have computed := SSZ.calculateMerkleRoot_locate located fits
  rw [← leaf] at computed
  exact verifyValidator_of_root root computed

section Parent

variable {parent : BeaconBlock B} {parentState : BeaconState B}

/-- The block with its parent and the state of its parent in the place of the parent root. -/
def BeaconBlock.withParent (block parent : BeaconBlock B) (parentState : BeaconState B) : NestedTree B := container [
  uint64 block.slot,
  uint64 block.proposerIndex,
  parent.withState parentState,
  .chunk block.stateRoot,
  block.body.tree]

theorem withParent_root (linked : parent.hashTreeRoot = block.parentRoot)
    (same : parentState.hashTreeRoot = parent.stateRoot) :
    (block.withParent parent parentState).root sha256 = block.hashTreeRoot := by
  rw [BeaconBlock.hashTreeRoot, BeaconBlock.tree, BeaconBlock.withParent,
    container_root (by decide : levels 5 = 3) rfl, container_root (by decide : levels 5 = 3) rfl]
  simp only [List.map_cons, NestedTree.root, ← linked, ← withState_root same]

/-- This is the path `["parent_root"]`, continued by the path to the validator in the parent. -/
def parentValidatorPath (i : ℕ) : List ℕ := 2 :: validatorPath i

/-- The validators of the parent stand 4608 lists behind the validators of the block. -/
theorem compose_memberIndex {i : ℕ} (inside : i < VALIDATOR_REGISTRY_LIMIT) :
    compose 10 (memberIndex i) = memberIndex (4608 * 2 ^ 40 + i) := by
  have base (j : ℕ) : memberIndex j = 726 * 2 ^ 40 + j := rfl
  have limit : i < 2 ^ 40 := inside
  have level : (memberIndex i).log2 = 49 := by
    rw [Nat.log2_eq_iff (by rw [base]; omega), base]
    omega
  rw [compose, level, base, base]
  omega

theorem locate_parentValidator (block parent : BeaconBlock B) (parentState : BeaconState B) {i : ℕ}
    (inside : i < VALIDATOR_REGISTRY_LIMIT) :
    (block.withParent parent parentState).locate (parentValidatorPath i) =
      some (memberIndex (4608 * 2 ^ 40 + i), (parentState.validators.map validatorTree).getD i (.chunk zero)) :=
  locate_container (by decide : levels 5 = 3) rfl rfl (locate_validator parent parentState inside)
    (compose_memberIndex inside)

/-- A proof against the root of the block shows a validator of the state of its parent. -/
theorem verifyValidator_parent [DecidableEq B] {env : Env B} {ts : Uint64}
    (linked : parent.hashTreeRoot = block.parentRoot) (same : parentState.hashTreeRoot = parent.stateRoot)
    (root : env.beaconRoots ts = some block.hashTreeRoot)
    (padded : ∀ offset, 48 ≤ offset → offset < 64 → env.memory offset = 0) {i : ℕ}
    (inside : i < parentState.validators.length) :
    ∃ proof, verifyValidator env proof parentState.validators[i] (memberIndex (4608 * 2 ^ 40 + i)) ts = .ok true := by
  have short := inside.trans_le parentState.validators_length
  have located := locate_parentValidator block parent parentState short
  rw [List.getD_eq_getElem?_getD, List.getElem?_map, List.getElem?_eq_getElem inside] at located
  have fits : memberIndex (4608 * 2 ^ 40 + i) < 2 ^ 256 := by
    have base : memberIndex (4608 * 2 ^ 40 + i) = 726 * 2 ^ 40 + (4608 * 2 ^ 40 + i) := rfl
    have limit : i < 2 ^ 40 := short
    omega
  rw [← withParent_root linked same] at root
  exact ⟨_, verifyValidator_locate located fits root (parentState.pubkey_length _ (List.getElem_mem inside)) padded⟩

end Parent

variable [DecidableEq B] [CollisionFree B]

/-- Whatever the path through a form of the block is, the verifier accepts the hash tree root of the part at its end
at the index of the path, and it accepts nothing else there. -/
theorem paths_provable (same : state.hashTreeRoot = block.stateRoot) {tree found : NestedTree B}
    (form : tree ∈ [headerTree block.header, block.tree, (block.blockState state).tree, block.withState state])
    {path : List ℕ} {index : Word} (located : tree.locate path = some (index.toNat, found)) (leaf : B)
    (memory : Word → B) :
    (∃ proof, SSZ.verifyProof memory proof (SSZ.beaconHeaderHashTreeRoot block.header) leaf index = .ok true) ↔
      leaf = found.root sha256 := by
  have accepts := SSZ.verifyProof_locate located index.isLt leaf memory
  rwa [form_root same form, BitVec.ofNat_toNat, BitVec.setWidth_eq] at accepts

/-- The oracle accepts the proposer and the fee recipient of the block, and the validators of its state at the index
that the pool computes.  It accepts nothing else. -/
theorem containers_provable (same : state.hashTreeRoot = block.stateRoot)
    (nonzero : ∀ left right : B, sha256 left right ≠ zero) {env : Env B} {ts : Uint64}
    (root : env.beaconRoots ts = some block.hashTreeRoot)
    (padded : ∀ offset, 48 ≤ offset → offset < 64 → env.memory offset = 0) :
    (∀ validatorIndex feeRecipient,
      (∃ proof map, verifyFeeRecipient env [PROPOSER_INDEX, FEE_RECIPIENT] proof validatorIndex feeRecipient ts
        .empty = .ok (true, map)) ↔
      validatorIndex = block.proposerIndex.setWidth 256 ∧ feeRecipient = block.body.executionPayload.feeRecipient) ∧
    ∀ (validatorIndex : Uint64) (record : BeaconChainValidator), validatorIndex.toNat < VALIDATOR_REGISTRY_LIMIT →
      record.pubkey.length = 48 →
      ((∃ gIndex proof, Pool.validatorGIndex validatorIndex = .ok gIndex ∧
        verifyValidator env proof record gIndex ts = .ok true) ↔
      state.validators[validatorIndex.toNat]? = some record) := by
  have top : env.beaconRoots ts = some ((block.toTree state).node 1) := by rw [root, toTree_root same]
  exact ⟨feeRecipient_exact top, fun _ _ short length => validator_exact nonzero top padded short length⟩

section Sample

/-- The Ethereum 1 data count one deposit. -/
def sampleEth1Data : NestedTree Term := container [.chunk (.word 2), uint64 1, .chunk (.word 3)]

/-- The state lists one validator. -/
def proposedState : BeaconState Term where
  genesisTime := 1606824023
  genesisValidatorsRoot := .word 1
  slot := 3
  fork := .chunk (.word 2)
  latestBlockHeader := SSZ.sampleHeader
  blockRoots := .chunk (.word 3)
  stateRoots := .chunk (.word 4)
  historicalRoots := .chunk (.word 5)
  eth1Data := sampleEth1Data
  eth1DataVotes := .chunk (.word 7)
  eth1DepositIndex := 1
  validators := [.sample 32000000000 1000000]
  validators_length := by decide
  pubkey_length := by decide
  balances := .chunk (.word 8)
  randaoMixes := .chunk (.word 9)
  slashings := .chunk (.word 10)
  previousEpochParticipation := .chunk (.word 11)
  currentEpochParticipation := .chunk (.word 12)
  justificationBits := .word 13
  previousJustifiedCheckpoint := .chunk (.word 14)
  currentJustifiedCheckpoint := .chunk (.word 15)
  finalizedCheckpoint := .chunk (.word 16)
  inactivityScores := .chunk (.word 17)
  currentSyncCommittee := .chunk (.word 18)
  nextSyncCommittee := .chunk (.word 19)
  latestExecutionPayloadHeader := .chunk (.word 20)
  nextWithdrawalIndex := 0
  nextWithdrawalValidatorIndex := 0
  historicalSummaries := .chunk (.word 21)

/-- The payload pays the address `0xaa`. -/
def proposedPayload : ExecutionPayload Term where
  parentHash := .word 1
  feeRecipient := 0xaa
  stateRoot := .word 2
  receiptsRoot := .word 3
  logsBloom := .chunk (.word 4)
  prevRandao := .word 5
  blockNumber := 20107024
  gasLimit := 30000000
  gasUsed := 21000
  timestamp := 1718573135
  extraData := .chunk (.word 6)
  baseFeePerGas := 7
  blockHash := .word 8
  transactions := .chunk (.word 9)
  withdrawals := [⟨0, 0, 0xaa, 1⟩]
  withdrawals_length := by decide
  blobGasUsed := 0
  excessBlobGas := 0

def proposedBody : BeaconBlockBody Term where
  randaoReveal := .chunk (.word 1)
  eth1Data := sampleEth1Data
  graffiti := .word 2
  proposerSlashings := .chunk (.word 3)
  attesterSlashings := .chunk (.word 4)
  attestations := .chunk (.word 5)
  deposits := .chunk (.word 6)
  voluntaryExits := .chunk (.word 7)
  syncAggregate := .chunk (.word 8)
  executionPayload := proposedPayload
  blsToExecutionChanges := .chunk (.word 9)
  blobKzgCommitments := .chunk (.word 10)

/-- The validator 0 proposes the block of the state. -/
def proposedBlock : BeaconBlock Term where
  slot := 3
  proposerIndex := 0
  parentRoot := .word 1
  stateRoot := proposedState.hashTreeRoot
  body := proposedBody

/-- The paths to the gas limit and to the deposit count lead through the body. -/
theorem proposedBlock_gasLimit :
    (∃ proof, SSZ.verifyProof (fun _ => Term.word 0) proof (SSZ.beaconHeaderHashTreeRoot proposedBlock.header)
      (word (chunk (uint64Bytes 30000000))) 6439 = .ok true) ∧
    ∃ proof, SSZ.verifyProof (fun _ => Term.word 0) proof (SSZ.beaconHeaderHashTreeRoot proposedBlock.header)
      (word (chunk (uint64Bytes 1))) 773 = .ok true := by
  have gasLimit : (proposedBlock.withState proposedState).locate ([4] ++ [9] ++ [7]) =
      some ((6439 : Word).toNat, uint64 30000000) :=
    NestedTree.locate_append (locate_executionPayload proposedBlock proposedState)
      (locate_container (by decide : levels 17 = 5) rfl rfl (NestedTree.locate_nil _) rfl)
  have depositCount : sampleEth1Data.locate [1] = some (5, uint64 1) :=
    locate_container (by decide : levels 3 = 2) rfl rfl (NestedTree.locate_nil _) rfl
  have eth1Data : proposedBlock.body.tree.locate [1, 1] = some (69, uint64 1) :=
    locate_container (by decide : levels 12 = 4) rfl rfl depositCount rfl
  have deposits : (proposedBlock.withState proposedState).locate ([4] ++ [1, 1]) =
      some ((773 : Word).toNat, uint64 1) :=
    NestedTree.locate_append (locate_body proposedBlock proposedState) eth1Data
  have form : proposedBlock.withState proposedState ∈ [headerTree proposedBlock.header, proposedBlock.tree,
      (proposedBlock.blockState proposedState).tree, proposedBlock.withState proposedState] := by simp
  exact ⟨(paths_provable rfl form gasLimit _ _).mpr rfl, (paths_provable rfl form deposits _ _).mpr rfl⟩

/-- The oracle accepts the validator 0 with the fee recipient, and its record. -/
theorem proposedBlock_accepted :
    let env := Env.answering 0 0 proposedBlock.hashTreeRoot
    (∃ proof map, verifyFeeRecipient env [PROPOSER_INDEX, FEE_RECIPIENT] proof 0 0xaa 0 .empty = .ok (true, map)) ∧
      ∃ gIndex proof, Pool.validatorGIndex 0 = .ok gIndex ∧
        verifyValidator env proof (.sample 32000000000 1000000) gIndex 0 = .ok true := by
  have nonzero (left right : Term) : sha256 left right ≠ zero := nofun
  obtain ⟨recipients, validators⟩ := @containers_provable Term _ proposedBlock proposedState _ _ rfl nonzero
    (.answering 0 0 proposedBlock.hashTreeRoot) 0 rfl fun _ _ _ => rfl
  exact ⟨(recipients 0 0xaa).mpr ⟨rfl, rfl⟩, (validators 0 (.sample 32000000000 1000000) (by decide) rfl).mpr rfl⟩

/-- The next state lists the validator as well. -/
def nextState : BeaconState Term := { proposedState with slot := 4 }

def nextBlock : BeaconBlock Term where
  slot := 4
  proposerIndex := 0
  parentRoot := proposedBlock.hashTreeRoot
  stateRoot := nextState.hashTreeRoot
  body := proposedBody

end Sample

end Consensus

/-- The first validator of the parent block is reached through `parent_root`: its gindex is
`10 * 2 ^ 9 + 214` followed by forty zeros. -/
theorem parent_block_unsound : ¬ MemberSound (4608 * 2 ^ 40) := by
  intro sound
  let root := Consensus.nextBlock.hashTreeRoot
  let env : Env Term := .answering 1700000000 1700000000 root
  have top : env.beaconRoots 1700000000 = some root := rfl
  obtain ⟨proof, verifies⟩ := @Consensus.verifyValidator_parent Term _ Consensus.nextBlock Consensus.proposedBlock
    Consensus.proposedState _ env 1700000000 rfl rfl top (fun _ _ _ => rfl) 0 (by decide)
  have located : Pool.validatorGIndex (4608 * 2 ^ 40) = .ok (memberIndex (4608 * 2 ^ 40 + 0)) := by decide
  obtain ⟨r, accepted⟩ := register_fresh located verifies
  have tree : env.beaconRoots 1700000000 = some ((Consensus.nextBlock.toTree Consensus.nextState).node 1) := by
    rw [top, Consensus.toTree_root rfl]
  obtain ⟨_, _, _, short, _⟩ := sound Term .flag env (Consensus.nextBlock.toTree Consensus.nextState).toBlockTree _ r _
    (fun paid => .ok paid) proof _ _ tree (.inl accepted)
  exact absurd short (by decide)

end SmoothlyPool
