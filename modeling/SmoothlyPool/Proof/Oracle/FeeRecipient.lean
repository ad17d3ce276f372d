import SmoothlyPool.Construction.BlockTree
import SmoothlyPool.Proof.Scenario
import SmoothlyPool.Proof.Merkle.Multiproof
import SmoothlyPool.Proof.Strings

namespace SmoothlyPool

open Bytes32 Checked GIndex Merkle BlockTree

namespace BeaconOracle

/-- Every accepted proof with these indices shows the proposer and the fee recipient of the block. -/
def FeeRecipientSound (indices : List ℕ) : Prop :=
  ∀ (B : Type) [Bytes32 B] [CollisionFree B] [DecidableEq B] (env : Env B) (block : BlockTree B)
    (proof : List B) (validatorIndex : Word) (feeRecipient : Address) (timestamp : Uint64) (map : HashMap B),
    env.beaconRoots timestamp = some (block.node 1) →
    verifyFeeRecipient env indices proof validatorIndex feeRecipient timestamp .empty = .ok (true, map) →
    block.node PROPOSER_INDEX = word (toLittleEndian validatorIndex) ∧
    block.node FEE_RECIPIENT = word (leftAligned feeRecipient)

section Verify

variable {B : Type} [Bytes32 B] [DecidableEq B]

theorem verifyFeeRecipient_ok {env : Env B} {indices : List ℕ} {proof : List B} {validatorIndex : Word}
    {feeRecipient : Address} {timestamp : Uint64} {map final : HashMap B} :
    verifyFeeRecipient env indices proof validatorIndex feeRecipient timestamp map = .ok (true, final) ↔
      indices.length = 2 ∧ ∃ root, env.beaconRoots timestamp = some root ∧
        calculateMultiMerkleRoot proof
          [word (toLittleEndian validatorIndex), word (leftAligned feeRecipient)] indices map =
          .ok (root, final) := by
  have parent (root : B) : getParentBlockRoot env timestamp = .ok root ↔ env.beaconRoots timestamp = some root := by
    unfold getParentBlockRoot
    cases env.beaconRoots timestamp <;> simp
  simp only [verifyFeeRecipient, bind_eq_ok, require_eq_ok, parent]
  constructor
  · rintro ⟨_, two, root, found, ⟨_, _⟩, computed, _, same, result⟩
    cases same
    cases result
    exact ⟨two, _, found, computed⟩
  · rintro ⟨two, root, found, computed⟩
    exact ⟨(), two, root, found, (root, final), computed, (), rfl, rfl⟩

end Verify

end BeaconOracle

/-- The nodes above a target are composite when they are so up to the height of the target. -/
theorem composite_of_above {target : ℕ} (depth : ℕ) (small : target < 2 ^ depth)
    (decided : ∀ height < depth, target / 2 ^ height ≠ target → Composite (target / 2 ^ height)) {k : ℕ}
    (positive : 1 ≤ k) (above : Above k target) (proper : k ≠ target) : Composite k := by
  obtain ⟨height, low, rfl⟩ := above.height depth positive small
  exact decided height low proper

namespace BeaconOracle

theorem sound_of_positions : FeeRecipientSound [PROPOSER_INDEX, FEE_RECIPIENT] := by
  intro B _ _ _ env block proof validatorIndex feeRecipient timestamp map root accepted
  obtain ⟨_, blockRoot, found, computed⟩ := verifyFeeRecipient_ok.mp accepted
  obtain rfl : block.node 1 = blockRoot := Option.some.inj (root.symm.trans found)
  obtain ⟨helpers, built, completes⟩ := getHelperIndices_ok [PROPOSER_INDEX, FEE_RECIPIENT]
  have apart : ¬ Above PROPOSER_INDEX FEE_RECIPIENT := by
    intro above
    obtain ⟨height, low, same⟩ := above.height 13 (by decide) (by decide)
    revert height
    decide
  constructor
  · rw [← calculateMultiMerkleRoot_agrees built completes (by simp) (by decide) ?_ ?_ computed]
    · simp [supply, setAll, HashMap.set_value, PROPOSER_INDEX, FEE_RECIPIENT]
    · intro k listed above
      have bound := above.le
      simp [PROPOSER_INDEX, FEE_RECIPIENT] at listed bound ⊢
      omega
    · intro k positive above proper
      exact block.hashed k (composite_of_above 4 (by decide) (by decide) positive above proper)
  · rw [← calculateMultiMerkleRoot_agrees built completes (by simp) (by decide) ?_ ?_ computed]
    · simp [supply, setAll, HashMap.set_value, PROPOSER_INDEX, FEE_RECIPIENT]
    · intro k listed above
      rcases List.mem_pair.mp listed with rfl | rfl
      · exact absurd above apart
      · rfl
    · intro k positive above proper
      exact block.hashed k (composite_of_above 13 (by decide) (by decide) positive above proper)

/-- The block that labels each node with itself. -/
def nodeBlock (place : Word → ℕ) : BlockTree (NodeString place) where
  node := .node
  hashed k _ := NodeString.node_hashed k

/-- The labels of the block pass at every pair of indices, so a sound pair is the pair of positions. -/
theorem positions_of_sound {place : Word → ℕ} {first second : ℕ} (validatorIndex : Word)
    (feeRecipient : Address) (injective : Function.Injective place)
    (some : ∃ index ∈ [first, second], 1 ≤ index)
    (firstPlaced : place (toLittleEndian validatorIndex) = first)
    (secondPlaced : place (leftAligned feeRecipient) = second)
    (sound : FeeRecipientSound [first, second]) : first = PROPOSER_INDEX ∧ second = FEE_RECIPIENT := by
  obtain ⟨helpers, built, completes⟩ := getHelperIndices_ok [first, second]
  obtain ⟨map, computed⟩ := calculateMultiMerkleRoot_labels (.node : ℕ → NodeString place) built completes
    (fun k _ _ => NodeString.node_hashed k) some
  have leaves : [first, second].map (.node : ℕ → NodeString place) =
      [word (toLittleEndian validatorIndex), word (leftAligned feeRecipient)] := by
    rw [← firstPlaced, ← secondPlaced]
    rfl
  rw [leaves] at computed
  have := NodeString.collisionFree injective
  have carried := sound (NodeString place) (Env.answering 0 0 (.node 1)) (nodeBlock place) _ validatorIndex
    feeRecipient 0 map rfl (verifyFeeRecipient_ok.mpr ⟨rfl, .node 1, rfl, computed⟩)
  have firstSame : (.node PROPOSER_INDEX : NodeString place) = .node first := firstPlaced ▸ carried.1
  have secondSame : (.node FEE_RECIPIENT : NodeString place) = .node second := secondPlaced ▸ carried.2
  exact ⟨(NodeString.node.inj firstSame).symm, (NodeString.node.inj secondSame).symm⟩

/-- Two words lie on two given nodes, and the other words lie behind both nodes. -/
def placeTwo (a b : Word) (first second : ℕ) (w : Word) : ℕ :=
  if w = a then first else if w = b then second else first + second + 1 + w.toNat

theorem placeTwo_injective {a b : Word} {first second : ℕ} (nodes : first ≠ second) :
    Function.Injective (placeTwo a b first second) := by
  intro v w same
  unfold placeTwo at same
  split_ifs at same <;> first | omega | exact BitVec.eq_of_toNat_eq (by omega) | simp_all

theorem shifted_place (first : ℕ) : Function.Injective fun w : Word => first + w.toNat :=
  fun _ _ same => BitVec.eq_of_toNat_eq (Nat.add_left_cancel same)

/-- Nothing is hashed at the index 0, and the root stays zero. -/
theorem not_sound_zero : ¬ FeeRecipientSound [0, 0] := by
  intro sound
  have := NodeString.collisionFree (shifted_place 1)
  have computed : ∃ map, calculateMultiMerkleRoot [] [word (toLittleEndian 0), word (leftAligned 0)] [0, 0] .empty =
      .ok ((zero : NodeString fun w : Word => 1 + w.toNat), map) := ⟨_, rfl⟩
  obtain ⟨map, computed⟩ := computed
  have carried := sound (NodeString fun w : Word => 1 + w.toNat) (Env.answering 0 0 zero) (nodeBlock _) [] 0 0 0
    map rfl (verifyFeeRecipient_ok.mpr ⟨rfl, zero, rfl, computed⟩)
  exact absurd (NodeString.node.inj carried.1) (by decide)

/-- The check binds the proposer and the fee recipient exactly at the two positions.
An index list of another length is refused. -/
theorem feeRecipientSound_iff (indices : List ℕ) :
    FeeRecipientSound indices ↔ indices.length ≠ 2 ∨ indices = [PROPOSER_INDEX, FEE_RECIPIENT] := by
  constructor
  · intro sound
    by_cases two : indices.length = 2
    · obtain ⟨first, second, rfl⟩ := List.length_eq_two.mp two
      right
      by_cases same : first = second
      · subst same
        by_cases none : first = 0
        · subst none
          exact absurd sound not_sound_zero
        · have placed : first + (toLittleEndian 0).toNat = first := rfl
          obtain ⟨left, right⟩ := positions_of_sound 0 0 (shifted_place first) ⟨first, by simp, by omega⟩
            placed placed sound
          exact absurd (left.symm.trans right) (by decide)
      · have words : toLittleEndian 1 ≠ leftAligned 0 := by decide
        have firstPlaced : placeTwo (toLittleEndian 1) (leftAligned 0) first second (toLittleEndian 1) = first :=
          if_pos rfl
        have secondPlaced : placeTwo (toLittleEndian 1) (leftAligned 0) first second (leftAligned 0) = second :=
          (if_neg words.symm).trans (if_pos rfl)
        have some : ∃ index ∈ [first, second], 1 ≤ index := by
          simp
          omega
        obtain ⟨rfl, rfl⟩ := positions_of_sound 1 0 (placeTwo_injective same) some firstPlaced secondPlaced sound
        rfl
    · exact .inl two
  · rintro (other | rfl)
    · intro B _ _ _ env block proof validatorIndex feeRecipient timestamp map _ accepted
      exact absurd (verifyFeeRecipient_ok.mp accepted).1 other
    · exact sound_of_positions

/-- The proposer 5 pays the fees of its block to the address `0xaa`. -/
def sampleBlock : BlockTree Term :=
  .ofFields fun k =>
    if k = PROPOSER_INDEX then word (toLittleEndian 5)
    else if k = FEE_RECIPIENT then word (leftAligned 0xaa) else zero

/-- With the fee recipient listed twice, the second leaf overwrites the first one, and the block passes
as a block of the validator 7. -/
theorem repeated_index_unsound : ¬ FeeRecipientSound [FEE_RECIPIENT, FEE_RECIPIENT] := by
  intro sound
  obtain ⟨helpers, built, completes⟩ := getHelperIndices_ok [FEE_RECIPIENT, FEE_RECIPIENT]
  have recipient : sampleBlock.node FEE_RECIPIENT = word (leftAligned 0xaa) := by
    show nodeOf _ FEE_RECIPIENT = _
    rw [nodeOf, dif_neg (by decide), if_neg (by decide), if_pos rfl]
  have proposer : sampleBlock.node PROPOSER_INDEX = word (toLittleEndian 5) := by
    show nodeOf _ PROPOSER_INDEX = _
    rw [nodeOf, dif_neg (by decide), if_pos rfl]
  have supplied : ∀ k, k ∈ helpers ∨ k ∈ [FEE_RECIPIENT, FEE_RECIPIENT] →
      (supply helpers (helpers.map sampleBlock.node) [FEE_RECIPIENT, FEE_RECIPIENT]
        [word (toLittleEndian 7), word (leftAligned 0xaa)] .empty).value k = sampleBlock.node k := by
    intro k present
    by_cases listed : k ∈ [FEE_RECIPIENT, FEE_RECIPIENT]
    · obtain rfl : k = FEE_RECIPIENT := by simpa using listed
      rw [recipient]
      simp [supply, setAll, HashMap.set_value]
    · rw [supply, setAll_value_of_notMem _ _ _ listed]
      exact setAll_map _ _ _ (present.resolve_right listed)
  have hashed : ∀ k, 1 ≤ k → Interior [FEE_RECIPIENT, FEE_RECIPIENT] k → HashedAt sha256 sampleBlock.node k := by
    rintro k positive ⟨index, listed, above, proper⟩
    obtain rfl : index = FEE_RECIPIENT := by simpa using listed
    exact sampleBlock.hashed k (composite_of_above 13 (by decide) (by decide) positive above proper)
  obtain ⟨map, computed⟩ := calculateMultiMerkleRoot_of_supply sampleBlock.node built completes rfl
    (List.length_map _) supplied hashed ⟨FEE_RECIPIENT, by simp, by decide⟩
  have carried := sound Term (Env.answering 0 0 (sampleBlock.node 1)) sampleBlock _ 7 0xaa 0 map rfl
    (verifyFeeRecipient_ok.mpr ⟨rfl, sampleBlock.node 1, rfl, computed⟩)
  rw [proposer] at carried
  exact absurd carried.1 (by decide)

end BeaconOracle

end SmoothlyPool
