import Mathlib.Data.BitVec
import SmoothlyPool.Construction.BlockTree
import SmoothlyPool.Proof.Scenario
import SmoothlyPool.Proof.Merkle.Branch
import SmoothlyPool.Proof.Strings

namespace SmoothlyPool

open Bytes32 Checked GIndex Merkle BlockTree BeaconOracle Pool

/-- Every registration and every update with this index is about the member of the list of the block. -/
def MemberSound (validatorIndex : Uint64) : Prop :=
  ∀ (B : Type) [Bytes32 B] [CollisionFree B] [DecidableEq B] (G : ReentrancyGuard) (env : Env B)
    (block : BlockTree B) (s r : Pool B G) (msg : Msg) (callback : Callback B G) (validatorProof : List B)
    (validator : BeaconChainValidator) (ts : Uint64),
    env.beaconRoots ts = some (block.node 1) →
    s.register env msg validatorIndex validatorProof validator ts = .ok r ∨
      s.updateValidator env msg callback validatorIndex validatorProof validator ts = .ok r →
    ∃ gIndex, validatorGIndex validatorIndex = .ok gIndex ∧
      gIndex = VALIDATORS * 2 ^ VALIDATORS_DEPTH + validatorIndex.toNat ∧
      validatorIndex.toNat < 2 ^ VALIDATORS_DEPTH ∧
      gIndex / 2 ^ VALIDATORS_DEPTH = VALIDATORS ∧
      block.node gIndex = validatorHashTreeRoot env validator

/-- The index lies in the list, or the sum of the base and the index overflows. -/
def IndexFits (validatorIndex : Uint64) : Prop :=
  validatorIndex.toNat < 2 ^ VALIDATORS_DEPTH ∨ 2 ^ 64 ≤ ZERO_VALIDATOR_INDEX + validatorIndex.toNat

section Verify

variable {B : Type} {G : ReentrancyGuard} [Bytes32 B] {env : Env B} {s r : Pool B G} {msg : Msg}
  {validatorIndex : Uint64} {validatorProof : List B} {validator : BeaconChainValidator} {ts : Uint64}

/-- The root of a record depends on the memory alone. -/
theorem validatorHashTreeRoot_congr {first second : Env B} (memory : first.memory = second.memory)
    (validator : BeaconChainValidator) :
    (validatorHashTreeRoot first validator : B) = validatorHashTreeRoot second validator := by
  unfold validatorHashTreeRoot pubkeyMemory
  rw [memory]

variable [DecidableEq B]

theorem verifyValidator_ok {gIndex : ℕ} {verified : Bool}
    (success : verifyValidator env validatorProof validator gIndex ts = .ok verified) :
    ∃ root, env.beaconRoots ts = some root ∧
      calculateMerkleRoot validatorProof (validatorHashTreeRoot env validator) gIndex = .ok root := by
  simp only [verifyValidator, bind_eq_ok, require_eq_ok] at success
  obtain ⟨blockRoot, found, root, computed, _, same, _⟩ := success
  rw [same] at computed
  refine ⟨blockRoot, ?_, computed⟩
  unfold getParentBlockRoot at found
  split at found
  · rename_i value returned
    rw [returned, Except.ok.inj found]
  · exact nomatch found

/-- A proof that leads from the record to the root is accepted. -/
theorem verifyValidator_of_root {gIndex : ℕ} {root : B} (answered : env.beaconRoots ts = some root)
    (computed : calculateMerkleRoot validatorProof (validatorHashTreeRoot env validator) gIndex = .ok root) :
    verifyValidator env validatorProof validator gIndex ts = .ok true := by
  have found : getParentBlockRoot env ts = .ok root := by rw [getParentBlockRoot, answered]
  rw [verifyValidator, found, ok_bind, computed, ok_bind, require, if_pos rfl, ok_bind]

theorem register_verifies (success : s.register env msg validatorIndex validatorProof validator ts = .ok r) :
    ∃ gIndex verified, validatorGIndex validatorIndex = .ok gIndex ∧
      verifyValidator env validatorProof validator gIndex ts = .ok verified := by
  simp only [register, bind_eq_ok] at success
  obtain ⟨_, _, _, _, _, _, gIndex, located, _, _, _, _, _, _, verified, verifies, _⟩ := success
  exact ⟨gIndex, verified, located, verifies⟩

theorem updateValidator_verifies {callback : Callback B G}
    (success : s.updateValidator env msg callback validatorIndex validatorProof validator ts = .ok r) :
    ∃ gIndex verified, validatorGIndex validatorIndex = .ok gIndex ∧
      verifyValidator env validatorProof validator gIndex ts = .ok verified := by
  simp only [updateValidator, bind_eq_ok] at success
  obtain ⟨_, _, _, _, _, _, gIndex, located, verified, verifies, _⟩ := success
  exact ⟨gIndex, verified, located, verifies⟩

theorem validatorGIndex_ok {gIndex : ℕ} : validatorGIndex validatorIndex = .ok gIndex ↔
    ZERO_VALIDATOR_INDEX + validatorIndex.toNat < 2 ^ 64 ∧
      ZERO_VALIDATOR_INDEX + validatorIndex.toNat = gIndex := by
  simp [validatorGIndex, bind_eq_ok]

end Verify

/-- The path of a member runs through composite nodes. -/
theorem composite_member {gIndex height : ℕ} (inside : gIndex / 2 ^ VALIDATORS_DEPTH = VALIDATORS)
    (positive : 0 < height) (below : height < 50) : Composite (gIndex / 2 ^ height) := by
  by_cases low : height ≤ VALIDATORS_DEPTH
  · refine ⟨(VALIDATORS, VALIDATORS_DEPTH), by decide, VALIDATORS_DEPTH - height,
      Nat.sub_lt (by decide) positive, ?_⟩
    rw [Nat.div_div_eq_div_mul, ← pow_add, Nat.add_sub_cancel' low]
    exact inside
  · obtain ⟨above, rfl⟩ := Nat.exists_eq_add_of_lt (Nat.lt_of_not_le low)
    have upper : ∀ rest < 9, Composite (VALIDATORS / 2 ^ (rest + 1)) := by decide
    rw [Nat.add_assoc, pow_add, ← Nat.div_div_eq_div_mul, inside]
    have depth : VALIDATORS_DEPTH = 40 := rfl
    exact upper above (by omega)

theorem memberSound_of_fits {validatorIndex : Uint64} (fits : IndexFits validatorIndex) :
    MemberSound validatorIndex := by
  intro B _ _ _ G env block s r msg callback validatorProof validator ts root accepted
  obtain ⟨gIndex, verified, located, verifies⟩ := accepted.elim register_verifies updateValidator_verifies
  obtain ⟨small, same⟩ := validatorGIndex_ok.mp located
  have short : validatorIndex.toNat < 2 ^ VALIDATORS_DEPTH := fits.resolve_right (Nat.not_le_of_lt small)
  obtain ⟨blockRoot, found, computed⟩ := verifyValidator_ok verifies
  obtain rfl : block.node 1 = blockRoot := Option.some.inj (root.symm.trans found)
  have base : ZERO_VALIDATOR_INDEX = 2 ^ VALIDATORS_DEPTH * VALIDATORS := by decide
  have positive : 0 < gIndex := by
    rw [← same, base]
    exact Nat.add_pos_left (by decide) _
  have inside : gIndex / 2 ^ VALIDATORS_DEPTH = VALIDATORS := by
    rw [← same, base, Nat.mul_add_div (Nat.two_pow_pos _), Nat.div_eq_of_lt short, Nat.add_zero]
  refine ⟨gIndex, located, by rw [← same, base, Nat.mul_comm], short, inside, ?_⟩
  symm
  apply calculateMerkleRoot_agrees positive (by omega) _ computed
  intro height above below
  have depth : gIndex.log2 < 50 := by
    rw [Nat.log2_lt positive.ne', ← same]
    have bound : validatorIndex.toNat < 2 ^ 40 := short
    have start : ZERO_VALIDATOR_INDEX = 726 * 2 ^ 40 := by decide
    omega
  exact block.hashed _ (composite_member inside above (by omega))

/-- A pool without pending validators has room for one at the time of its rebalance. -/
theorem allocateSmooths_fresh {B : Type} {G : ReentrancyGuard} {s : Pool B G} {timestamp : ℕ}
    (level : s.lastRebalance = timestamp) (noBalance : s.pendingEB = 0) (noShare : s.pendingSmooths = 0)
    (effectiveBalance : Uint64) : allocateSmooths effectiveBalance.toNat timestamp s = .ok { s with
      pendingEB := effectiveBalance.toNat
      pendingSmooths := effectiveBalance.toNat * REBALANCE_PERIOD } := by
  have small := effectiveBalance.isLt
  have product : effectiveBalance.toNat * REBALANCE_PERIOD < 2 ^ 256 :=
    (Nat.mul_lt_mul_of_pos_right small (by decide)).trans (by decide)
  rw [allocateSmooths, level, noBalance, noShare, sub_ok le_rfl, ok_bind, add_ok (by omega), ok_bind,
    sub_ok (by omega), ok_bind, Nat.sub_self, Nat.sub_zero, mul_ok product, ok_bind, add_ok (by omega), ok_bind,
    Nat.zero_add, Nat.zero_add]

theorem internalRebalance_constructor {B : Type} {G : ReentrancyGuard} [Bytes32 B] (self : Address)
    (balance timestamp : ℕ) : (Pool.constructor self balance timestamp : Pool B G).internalRebalance timestamp =
      .ok (Pool.constructor self balance timestamp) := by
  simp [internalRebalance, Checked.sub, Pool.constructor]

/-- A fresh pool registers every record that verifies. -/
theorem register_fresh {B : Type} [Bytes32 B] [DecidableEq B] {root : B} {validatorIndex : Uint64}
    {validatorProof : List B} {gIndex : ℕ} (located : validatorGIndex validatorIndex = .ok gIndex)
    (verifies : verifyValidator (Env.answering 1700000000 1700000000 root) validatorProof
      (.sample 32000000000 1000000) gIndex 1700000000 = .ok true) :
    ∃ r : Pool B .flag, (Pool.constructor 0xabc 0 1700000000).register (Env.answering 1700000000 1700000000 root)
      ⟨0xdef, by decide, BOND⟩ validatorIndex validatorProof (.sample 32000000000 1000000) 1700000000 =
      .ok r := by
  have settles : (Pool.constructor 0xabc 0 1700000000 : Pool B .flag).internalRebalance 1700000000 =
    .ok (Pool.constructor 0xabc 0 1700000000) := internalRebalance_constructor _ _ _
  have now : (Env.answering 1700000000 1700000000 root).timestamp = 1700000000 := rfl
  have epoch : getEpoch 1700000000 = .ok 242645 := by decide
  have owner : withdrawalToAddress (BeaconChainValidator.sample 32000000000 1000000).withdrawalCredentials =
    .ok 0xdef := by decide
  have active : isActiveValidator (Env.answering 1700000000 1700000000 root) (.sample 32000000000 1000000) =
    .ok true := by
    rw [isActiveValidator, now, epoch]
    decide
  have vacant : ¬ 0 < ((Pool.constructor 0xabc 0 1700000000 : Pool B .flag).validators
    (validatorIndex.setWidth 256)).start := Nat.lt_irrefl 0
  have bonded : add Revert.arithmetic (Pool.constructor 0xabc 0 1700000000 : Pool B .flag).totalBond BOND =
    .ok BOND := by
    show add Revert.arithmetic 0 BOND = .ok BOND
    decide
  rw [register, now, settles, ok_bind, require_ok rfl, ok_bind, require_ok vacant, ok_bind, located, ok_bind, owner,
    ok_bind, active, ok_bind, require_ok rfl, ok_bind, verifies, ok_bind]
  dsimp only
  rw [bonded, ok_bind]
  exact ⟨_, allocateSmooths_fresh rfl rfl rfl _⟩

section Alias

variable (validatorIndex : Uint64)

/-- A branch of zeros hashes the record up to this root. -/
def aliasRoot : PairNumber :=
  let gIndex := ZERO_VALIDATOR_INDEX + validatorIndex.toNat
  merkleLoop gIndex 0 (List.replicate gIndex.log2 zero)
    (validatorHashTreeRoot (Env.answering 1700000000 1700000000 zero) (.sample 32000000000 1000000))

/-- The block splits the root into the pairs that it is made of. -/
def aliasBlock : BlockTree PairNumber where
  node := (aliasRoot validatorIndex).tree
  hashed _ composite := PairNumber.tree_hashed _ composite.bounds.1

/-- The branch of zeros verifies against its own root. -/
theorem verifyValidator_alias (small : ZERO_VALIDATOR_INDEX + validatorIndex.toNat < 2 ^ 64) :
    verifyValidator (Env.answering 1700000000 1700000000 (aliasRoot validatorIndex))
      (List.replicate (ZERO_VALIDATOR_INDEX + validatorIndex.toNat).log2 zero) (.sample 32000000000 1000000)
      (ZERO_VALIDATOR_INDEX + validatorIndex.toNat) 1700000000 = .ok true := by
  have positive : 0 < ZERO_VALIDATOR_INDEX + validatorIndex.toNat := Nat.add_pos_left (by decide) _
  have answered : (Env.answering 1700000000 1700000000 (aliasRoot validatorIndex)).beaconRoots 1700000000 =
    some (aliasRoot validatorIndex) := Env.answering_beaconRoots _ _ _
  have memory : (Env.answering 1700000000 1700000000 (aliasRoot validatorIndex)).memory =
    (Env.answering 1700000000 1700000000 (zero : PairNumber)).memory := rfl
  have leaf := validatorHashTreeRoot_congr memory (.sample 32000000000 1000000)
  have computed : calculateMerkleRoot (List.replicate (ZERO_VALIDATOR_INDEX + validatorIndex.toNat).log2 zero)
      (validatorHashTreeRoot (Env.answering 1700000000 1700000000 zero) (.sample 32000000000 1000000))
      (ZERO_VALIDATOR_INDEX + validatorIndex.toNat) = .ok (aliasRoot validatorIndex) := by
    rw [calculateMerkleRoot_ok positive (by omega)]
    exact ⟨List.length_replicate, rfl⟩
  rw [← leaf] at computed
  exact verifyValidator_of_root answered computed

theorem fits_of_memberSound (sound : MemberSound validatorIndex) : IndexFits validatorIndex := by
  by_cases small : ZERO_VALIDATOR_INDEX + validatorIndex.toNat < 2 ^ 64
  · obtain ⟨r, accepted⟩ := register_fresh (validatorGIndex_ok.mpr ⟨small, rfl⟩)
      (verifyValidator_alias validatorIndex small)
    have root : (Env.answering 1700000000 1700000000 (aliasRoot validatorIndex)).beaconRoots 1700000000 =
        some ((aliasBlock validatorIndex).node 1) := by
      rw [Env.answering_beaconRoots]
      exact congrArg some (PairNumber.tree_one (aliasRoot validatorIndex)).symm
    obtain ⟨_, _, _, short, _⟩ := sound PairNumber .flag _ (aliasBlock validatorIndex) _ r _
      (fun paid => .ok paid) _ _ _ root (.inl accepted)
    exact .inl short
  · exact .inr (Nat.le_of_not_lt small)

/-- The check binds the members of the list exactly for the indices that fit. -/
theorem memberSound_iff : MemberSound validatorIndex ↔ IndexFits validatorIndex :=
  ⟨fits_of_memberSound validatorIndex, memberSound_of_fits⟩

end Alias

end SmoothlyPool
