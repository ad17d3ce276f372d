import SmoothlyPool.Proof.Pool.Access
import SmoothlyPool.Proof.Pool.Honest

namespace SmoothlyPool

open Bytes32 Checked GIndex Pool Transition BlockTree

variable {B : Type} {G : ReentrancyGuard}

/-- The check of the activity depends on two fields only. -/
theorem isActiveValidator_congr {env : Env B} {record validator : BeaconChainValidator}
    (same : SameFields record validator) :
    BeaconOracle.isActiveValidator env record = BeaconOracle.isActiveValidator env validator := by
  rw [same]
  rfl

variable [Bytes32 B]

/-- Every root that the call can read belongs to one of the blocks. -/
def ReadsFrom (blocks : Set (BeaconBlock B)) (move : Move (World B G) (Input B)) : Prop :=
  ∀ ts root, move.label.env.beaconRoots ts = some root → ∃ block ∈ blocks, block.node 1 = root

/-- One of the blocks lists the validator at the position. -/
def Listed (blocks : Set (BeaconBlock B)) (key : Word) (validator : BeaconChainValidator) : Prop :=
  ∃ block ∈ blocks, block.validators[key.toNat]? = some validator

variable [DecidableEq B]

/-- An accepted record of a member stands in a block, up to its public key. -/
theorem Attests.listed [CollisionFree B] {blocks : Set (BeaconBlock B)} {move : Move (World B G) (Input B)}
    {key : Word} {record : BeaconChainValidator} (attested : Attests move.label.env key record)
    (nonzero : ∀ left right : B, sha256 left right ≠ zero) (reads : ReadsFrom blocks move)
    (short : key.toNat < 2 ^ VALIDATORS_DEPTH) :
    ∃ validator, Listed blocks key validator ∧ SameFields record validator := by
  obtain ⟨validatorIndex, gIndex, proof, ts, verified, rfl, located, accepted⟩ := attested
  have narrow : (validatorIndex.setWidth 256 : Word).toNat = validatorIndex.toNat :=
    BitVec.toNat_setWidth_of_le (by decide)
  rw [narrow] at short
  rw [validatorGIndex_member short] at located
  obtain rfl := Except.ok.inj located
  obtain ⟨root, found, _⟩ := verifyValidator_ok accepted
  obtain ⟨block, member, rfl⟩ := reads ts root found
  obtain ⟨validator, listed, same⟩ := verifyValidator_listed nonzero found short accepted
  exact ⟨validator, ⟨block, member, by rwa [narrow]⟩, same⟩

/-- The address of the record stands in a block, and so does its balance, from a time of activity. -/
structure Traceable (blocks : Set (BeaconBlock B)) (trace : List (Move (World B G) (Input B))) (key : Word)
    (record : Validator) : Prop where
  address : ∃ validator, Listed blocks key validator ∧
    BeaconOracle.withdrawalToAddress validator.withdrawalCredentials = .ok record.withdrawal
  balance : ∃ validator, Listed blocks key validator ∧ validator.effectiveBalance = record.effectiveBalance ∧
    ∃ move ∈ trace, BeaconOracle.isActiveValidator move.label.env validator = .ok true

/-- A lawful call keeps the record of a member backed. -/
theorem Lawful.backed [CollisionFree B] {blocks : Set (BeaconBlock B)} {move : Move (World B G) (Input B)}
    {trace : List (Move (World B G) (Input B))} {key : Word} (lawful : Lawful move key)
    (nonzero : ∀ left right : B, sha256 left right ≠ zero) (reads : ReadsFrom blocks move)
    (short : key.toNat < 2 ^ VALIDATORS_DEPTH)
    (backed : (move.before.pool.validators key).Registered →
      Traceable blocks trace key (move.before.pool.validators key))
    (registered : (move.after.pool.validators key).Registered) :
    Traceable blocks (move :: trace) key (move.after.pool.validators key) := by
  have dead : move.after.pool.validators key ≠ .unset := by
    intro removed
    rw [removed] at registered
    exact registered rfl
  by_cases member : (move.before.pool.validators key).Registered
  · rcases lawful.member member with ⟨_, removed⟩ | ⟨_, withdrawal, _, balance⟩
    · exact absurd removed dead
    · obtain ⟨address, validator, listed, same, earlier, past, active⟩ := backed member
      refine ⟨by rwa [withdrawal], ?_⟩
      rcases balance with unchanged | ⟨record, attested, current, updated⟩
      · exact ⟨validator, listed, same.trans unchanged.symm, earlier, .tail move past, active⟩
      · obtain ⟨validator, listed, fields⟩ := attested.listed nonzero reads short
        refine ⟨validator, listed, ?_, move, List.mem_cons_self, ?_⟩
        · rw [updated, fields]
        · rwa [← isActiveValidator_congr fields]
  · rcases lawful.vacant member with removed | ⟨record, withdrawal, attested, active, address, joined⟩
    · exact absurd removed dead
    · obtain ⟨validator, listed, fields⟩ := attested.listed nonzero reads short
      rw [joined]
      refine ⟨⟨validator, listed, ?_⟩, validator, listed, ?_, move, List.mem_cons_self, ?_⟩
      · rw [fields] at address
        exact address
      · rw [fields]
      · rwa [← isActiveValidator_congr fields]

/-- When every root belongs to a block, the records of the pool come from the validator lists of the blocks: the
withdrawal address of a member stands in the credentials at its position, its effective balance stood there while
the validator was active, and a validator removed for its inactivity is listed as inactive. -/
theorem records_from_beacon_chain [CollisionFree B] {blocks : Set (BeaconBlock B)}
    {trace : List (Move (World B G) (Input B))} {world : World B G}
    (nonzero : ∀ left right : B, sha256 left right ≠ zero)
    (run : Run Deployed (fun move => Succeeds move ∧ ReadsFrom blocks move) trace world) (key : Word)
    (short : key.toNat < 2 ^ VALIDATORS_DEPTH) :
    ((world.pool.validators key).Registered → Traceable blocks trace key (world.pool.validators key)) ∧
    ∀ move ∈ trace, (move.before.pool.validators key).Registered → ¬ (move.after.pool.validators key).Registered →
      ∀ validatorIndex validatorProof validator ts,
        move.label.call.message = .updateValidator validatorIndex validatorProof validator ts →
        ∃ member, Listed blocks key member ∧
          BeaconOracle.isActiveValidator move.label.env member = .ok false := by
  constructor
  · induction run with
    | start deployed =>
        obtain ⟨self, balance, created⟩ := deployed
        rw [created]
        exact fun registered => absurd rfl registered
    | next move earlier moves ih =>
        have lawful := moves.1.lawful (earlier.weaken fun _ both => both.1) key
        exact lawful.backed nonzero moves.2 short ih
  · intro move member registered gone validatorIndex validatorProof validator ts asked
    obtain ⟨older, newer, rfl⟩ := List.append_of_mem member
    obtain ⟨⟨succeeds, reads⟩, before⟩ := run.split
    have lawful := succeeds.lawful (before.weaken fun _ both => both.1) key
    rcases lawful.member registered with ⟨evicted, _⟩ | continues
    · cases evicted with
      | exit exits owner => exact absurd (exits.symm.trans asked) nofun
      | slash slashes proposed wrong => exact absurd (slashes.symm.trans asked) nofun
      | retire retires same attested inactive =>
          obtain ⟨member, listed, fields⟩ := attested.listed nonzero reads short
          exact ⟨member, listed, by rwa [← isActiveValidator_congr fields]⟩
    · exact absurd continues.registered gone

/-- A registration leaves a member behind. -/
theorem register_registered {env : Env B} {msg : Msg} {s r : Pool B G} {validatorIndex : Uint64} {proof : List B}
    {record : BeaconChainValidator} {ts : Uint64}
    (success : s.register env msg validatorIndex proof record ts = .ok r) :
    (r.validators (validatorIndex.setWidth 256)).Registered := by
  obtain ⟨withdrawal, effect, _⟩ : ∃ withdrawal, Effect env.timestamp msg (fun paid => .ok paid) s
      (.enrol (validatorIndex.setWidth 256) record.effectiveBalance withdrawal) r ∧ _ := register_justified success
  cases effect with
  | enrol opens bonded action =>
      cases action with
      | enrol vacant narrow genesis inside =>
          have positive : 0 < env.timestamp := lt_of_lt_of_le (by decide) genesis
          have record : ((s.books.checkpoint env.timestamp).enrol (validatorIndex.setWidth 256)
              record.effectiveBalance withdrawal env.timestamp).validators (validatorIndex.setWidth 256) =
                ((s.books.checkpoint env.timestamp).validators (validatorIndex.setWidth 256)).enrol
                  record.effectiveBalance withdrawal env.timestamp := Function.update_self ..
          show (((s.books.checkpoint env.timestamp).enrol (validatorIndex.setWidth 256) _ withdrawal
            env.timestamp).validators (validatorIndex.setWidth 256)).Registered
          rw [record]
          exact positive.ne'

namespace Sample

/-- The validator 5 of the block registers in the fresh pool. -/
theorem blockJoin_run : ∃ (trace : List (Move SampleWorld (Input Term))) (world : SampleWorld),
    Run Deployed (fun move => Succeeds move ∧ ReadsFrom {block 0xabc} move) trace world ∧
    (world.pool.validators 5).Registered := by
  obtain ⟨after, success⟩ := registers_of_admissible (.start SampleWorld.deployed_deployed)
    (ask_presents (by decide)) (by decide : (5 : Uint64).toNat < (block 0xabc).validators.length)
    (rfl : blockJoin.call.message = _)
    ⟨rfl, by decide, by decide +kernel, by decide⟩
  have later : SampleWorld.deployed.now ≤ blockJoin.env.timestamp := by decide
  have member := success
  rw [Call.execute_eq] at member
  have reads : ReadsFrom {block 0xabc} ⟨SampleWorld.deployed, blockJoin, ⟨1700000100, after⟩⟩ := by
    intro ts root found
    have same : (block 0xabc).node 1 = root := by
      unfold blockJoin ask Env.answering at found
      simp only [Option.ite_none_right_eq_some, Option.some.injEq] at found
      exact found.2
    exact ⟨block 0xabc, rfl, same⟩
  exact ⟨_, _, .next ⟨SampleWorld.deployed, blockJoin, ⟨1700000100, after⟩⟩ (.start SampleWorld.deployed_deployed)
    ⟨⟨later, rfl, success⟩, reads⟩, register_registered member⟩

end Sample

/-- The record of the validator 5 stands in the block that registers it. -/
theorem block_backs_record : ∃ (trace : List (Move SampleWorld (Input Term))) (world : SampleWorld),
    Traceable {Sample.block 0xabc} trace 5 (world.pool.validators 5) := by
  obtain ⟨trace, world, run, registered⟩ := Sample.blockJoin_run
  have nonzero (left right : Term) : sha256 left right ≠ zero := nofun
  exact ⟨trace, world, (records_from_beacon_chain nonzero run 5 (by decide)).1 registered⟩

end SmoothlyPool
