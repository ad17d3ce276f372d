import SmoothlyPool.Proof.Pool.Effect
import SmoothlyPool.Proof.Strings

namespace SmoothlyPool

open Bytes32 Checked Transition

/-- The guard stores a flag that is set while a guarded function runs. -/
def ReentrancyGuard.flag : ReentrancyGuard where
  Status := Bool
  notEntered := false
  entered := true
  before entered := if entered then none else some true
  after _ := false
  before_notEntered := rfl
  before_entered := rfl
  after_entered := rfl

instance : DecidableEq ReentrancyGuard.flag.Status := inferInstanceAs (DecidableEq Bool)

/-- The root contract knows one timestamp, and the memory behind the public key is zero. -/
def Env.answering {B : Type} (time ts : Uint64) (root : B) : Env B where
  timestamp := time.toNat
  timestamp_lt := time.isLt
  beaconRoots asked := if asked = ts then some root else none
  memory _ := 0

theorem Env.answering_beaconRoots {B : Type} (time ts : Uint64) (root : B) :
    (Env.answering time ts root).beaconRoots ts = some root := if_pos rfl

/-- The record of a validator that is active from the genesis on, with an execution withdrawal address. -/
def BeaconChainValidator.sample (effectiveBalance exitEpoch : Uint64) : BeaconChainValidator where
  pubkey := List.replicate 48 0xaa
  withdrawalCredentials := 1#256 <<< 248 ||| 0xdef
  effectiveBalance := effectiveBalance
  slashed := false
  activationEligibilityEpoch := 0
  activationEpoch := 0
  exitEpoch := exitEpoch
  withdrawableEpoch := exitEpoch

section Conditions

variable {B : Type} {G : ReentrancyGuard} {move : Move (World B G) (Input B)}

/-- Only withdrawals are asked for their records. -/
theorem withdrawsWhen_of_other (condition : ℕ → Validator → Prop)
    (other : ∀ indices proof validatorIndex timestamp,
      move.label.call.message ≠ .withdraw indices proof validatorIndex timestamp) :
    WithdrawsWhen condition move := by
  intro indices proof validatorIndex timestamp c asked
  exact absurd asked (other indices proof validatorIndex timestamp)

/-- Only updates are asked for their records. -/
theorem updatesWhen_of_other (condition : ℕ → ℕ → Validator → Prop)
    (other : ∀ validatorIndex validatorProof validator ts,
      move.label.call.message ≠ .updateValidator validatorIndex validatorProof validator ts) :
    UpdatesWhen condition move := by
  intro validatorIndex validatorProof validator ts c asked
  exact absurd asked (other validatorIndex validatorProof validator ts)

/-- The condition is asked of the record that the withdrawal finds. -/
theorem withdrawsWhen_of_found {condition : ℕ → Validator → Prop} {indices : List ℕ} {proof : List B} {key : Word}
    {timestamp : Uint64} (asked : move.label.call.message = .withdraw indices proof key timestamp)
    (found : condition (move.before.pool.checkpoint move.label.env.timestamp).lastRebalance
      ((move.before.pool.checkpoint move.label.env.timestamp).validators key)) : WithdrawsWhen condition move := by
  intro _ _ _ _ c also settles
  obtain ⟨_, _, rfl, _⟩ := Message.withdraw.inj (asked.symm.trans also)
  obtain ⟨_, rfl⟩ := Pool.internalRebalance_eq_ok.mp settles
  exact found

/-- The condition is asked of the record that the update finds. -/
theorem updatesWhen_of_found {condition : ℕ → ℕ → Validator → Prop} {validatorIndex : Uint64}
    {validatorProof : List B} {validator : BeaconChainValidator} {ts : Uint64}
    (asked : move.label.call.message = .updateValidator validatorIndex validatorProof validator ts)
    (found : condition move.label.env.timestamp
      (move.before.pool.checkpoint move.label.env.timestamp).lastRebalance
      ((move.before.pool.checkpoint move.label.env.timestamp).validators (validatorIndex.setWidth 256))) :
    UpdatesWhen condition move := by
  intro _ _ _ _ c also _ settles
  obtain ⟨rfl, _⟩ := Message.updateValidator.inj (asked.symm.trans also)
  obtain ⟨_, rfl⟩ := Pool.internalRebalance_eq_ok.mp settles
  exact found

theorem WithdrawsWhen.imp {condition weaker : ℕ → Validator → Prop} (met : WithdrawsWhen condition move)
    (implies : ∀ lastRebalance validator, condition lastRebalance validator → weaker lastRebalance validator) :
    WithdrawsWhen weaker move :=
  fun _ _ _ _ _ asked settles => implies _ _ (met _ _ _ _ _ asked settles)

theorem UpdatesWhen.imp {condition weaker : ℕ → ℕ → Validator → Prop} (met : UpdatesWhen condition move)
    (implies : ∀ timestamp lastRebalance validator, condition timestamp lastRebalance validator →
      weaker timestamp lastRebalance validator) : UpdatesWhen weaker move :=
  fun _ _ _ _ _ asked active settles => implies _ _ _ (met _ _ _ _ _ asked active settles)

end Conditions

namespace World

variable {B : Type} {G : ReentrancyGuard} [Bytes32 B] [DecidableEq B]

/-- A call takes the world to the time of the call. -/
def call (world : World B G) (input : Input B) : Except Revert (World B G) := do
  require (world.now ≤ input.env.timestamp) .arithmetic
  let pool ← input.call.execute input.env (world.pool.begin input.fresh)
  .ok ⟨input.env.timestamp, pool⟩

/-- A call that reverts leaves the world as it was. -/
def next (world : World B G) (input : Input B) : World B G :=
  match world.call input with
  | .ok after => after
  | .error _ => world

def move (world : World B G) (input : Input B) : Move (World B G) (Input B) := ⟨world, input, world.next input⟩

theorem move_succeeds {world : World B G} {input : Input B} (succeeds : (world.call input).isOk = true) :
    Succeeds (world.move input) := by
  obtain ⟨after, success⟩ := eq_ok_of_isOk succeeds
  have next : world.next input = after := by rw [World.next, success]
  simp only [call, bind_eq_ok, require_eq_ok] at success
  obtain ⟨_, later, pool, executes, result⟩ := success
  cases result
  rw [Succeeds, move, next]
  exact ⟨later, rfl, executes⟩

theorem run_move {step : Move (World B G) (Input B) → Prop} {trace : List (Move (World B G) (Input B))}
    {world : World B G} (input : Input B) (run : Run Deployed step trace world)
    (steps : step (world.move input)) : Run Deployed step (world.move input :: trace) (world.next input) :=
  .next (world.move input) run steps

end World

/-- These are worlds of terms under the flag. -/
abbrev SampleWorld := World Term .flag

/-- The pool starts with one ether at the given time. -/
def SampleWorld.deployed : SampleWorld := ⟨1700000000, Pool.constructor 0xabc (10 ^ 18) 1700000000⟩

theorem SampleWorld.deployed_deployed : Deployed SampleWorld.deployed := ⟨0xabc, 10 ^ 18, rfl⟩

/-- A branch of zeros leads from the record to this root. -/
def validatorRoot (validatorIndex : Uint64) (validator : BeaconChainValidator) : Term :=
  Merkle.merkleLoop (Pool.ZERO_VALIDATOR_INDEX + validatorIndex.toNat) 0 (List.replicate 49 zero)
    (BeaconOracle.validatorHashTreeRoot (Env.answering 0 0 (zero : Term)) validator)

/-- Helpers of zeros lead from the proposer and the fee recipient to this root. -/
def blockRoot (proposer : Word) (feeRecipient : Address) : Term :=
  match Merkle.calculateMultiMerkleRoot (List.replicate 13 zero)
      [word (toLittleEndian proposer), word (leftAligned feeRecipient)] [9, 6433] .empty with
  | .ok (root, _) => root
  | .error _ => zero

theorem owner_ne_zero : (0xdef : Address) ≠ 0 := by decide

/-- The owner of the withdrawal address calls, and it makes the given calls when it is paid. -/
def ownerCall (value : ℕ) (message : Message Term) (reentry : List (Call Term)) : Call Term :=
  .mk ⟨0xdef, owner_ne_zero, value⟩ message true reentry

namespace Sample

def register (time ts validatorIndex : Uint64) (validator : BeaconChainValidator) : Input Term where
  env := .answering time ts (validatorRoot validatorIndex validator)
  call := ownerCall Pool.BOND (.register validatorIndex (List.replicate 49 zero) validator ts) []
  fresh := true

def update (time ts validatorIndex : Uint64) (validator : BeaconChainValidator) : Input Term where
  env := .answering time ts (validatorRoot validatorIndex validator)
  call := ownerCall 0 (.updateValidator validatorIndex (List.replicate 49 zero) validator ts) []
  fresh := true

def withdraw (time ts : Uint64) (validatorIndex : Word) : Input Term where
  env := .answering time ts (blockRoot validatorIndex 0xabc)
  call := ownerCall 0 (.withdraw [9, 6433] (List.replicate 13 zero) validatorIndex ts) []
  fresh := true

def slash (time ts : Uint64) (validatorIndex : Word) (feeRecipient : Address) : Input Term where
  env := .answering time ts (blockRoot validatorIndex feeRecipient)
  call := ownerCall 0
    (.slashBadFeeRecipient [9, 6433] (List.replicate 13 zero) validatorIndex feeRecipient ts) []
  fresh := true

def exit (time : Uint64) (validatorIndex : Word) : Input Term where
  env := .answering time 0 zero
  call := ownerCall 0 (.exit validatorIndex) []
  fresh := true

def rebalance (time : Uint64) : Input Term where
  env := .answering time 0 zero
  call := ownerCall 0 .rebalance []
  fresh := true

/-- The validator 5 registers with 32 ETH. -/
def join : Input Term := register 1700000100 1700000100 5 (.sample 32000000000 1000000)

@[irreducible] def joined : SampleWorld := SampleWorld.deployed.next join

theorem join_succeeds : Succeeds (SampleWorld.deployed.move join) := World.move_succeeds (by decide +kernel)

theorem joined_run {step : Move SampleWorld (Input Term) → Prop} (joins : step (SampleWorld.deployed.move join)) :
    Run Deployed step [SampleWorld.deployed.move join] joined := by
  unfold joined
  exact World.run_move join (.start SampleWorld.deployed_deployed) joins

/-- The first rebalance settles the validator. -/
def settle : Input Term := rebalance 1701814500

@[irreducible] def settled : SampleWorld := joined.next settle

theorem settle_succeeds : Succeeds (joined.move settle) := World.move_succeeds (by decide +kernel)

theorem settled_run {step : Move SampleWorld (Input Term) → Prop} (joins : step (SampleWorld.deployed.move join))
    (settles : step (joined.move settle)) :
    Run Deployed step [joined.move settle, SampleWorld.deployed.move join] settled := by
  unfold settled
  exact World.run_move settle (joined_run joins) settles

/-- The owner asks for the exit of the validator. -/
def leave : Input Term := exit 1701814600 5

/-- The validator withdraws at the first rebalance after its registration. -/
def claim : Input Term := withdraw 1701814500 1701814500 5

@[irreducible] def claimed : SampleWorld := joined.next claim

theorem claimed_run : Run Deployed (fun move => Succeeds move ∧ Quiet move)
    [joined.move claim, SampleWorld.deployed.move join] claimed := by
  unfold claimed
  exact World.run_move claim (joined_run ⟨join_succeeds, rfl⟩) ⟨World.move_succeeds (by decide +kernel), rfl⟩

section Update

/-- The validator updates its record in the middle of the next period. -/
def refresh : Input Term := update 1701814600 1701814600 5 (.sample 32000000000 1000000)

@[irreducible] def refreshed : SampleWorld := settled.next refresh

theorem refreshed_run : Run Deployed (fun move => Succeeds move ∧ Quiet move)
    [settled.move refresh, joined.move settle, SampleWorld.deployed.move join] refreshed := by
  unfold refreshed
  exact World.run_move _ (settled_run ⟨join_succeeds, rfl⟩ ⟨settle_succeeds, rfl⟩)
    ⟨World.move_succeeds (by decide +kernel), rfl⟩

end Update

section Latecomer

/-- The validator 6 registers in the middle of the next period. -/
def joinLate : Input Term := register 1701814600 1701814600 6 (.sample 32000000000 1000000)

@[irreducible] def joinedLate : SampleWorld := settled.next joinLate

/-- It withdraws nothing shortly after. -/
def claimEarly : Input Term := withdraw 1701814700 1701814700 6

@[irreducible] def claimedEarly : SampleWorld := joinedLate.next claimEarly

@[irreducible] def credited : SampleWorld := claimedEarly.next (rebalance 1703629000)

/-- This is the history of the latecomer up to the second rebalance. -/
def creditedTrace : List (Move SampleWorld (Input Term)) :=
  [claimedEarly.move (rebalance 1703629000), joinedLate.move claimEarly, settled.move joinLate,
    joined.move settle, SampleWorld.deployed.move join]

theorem credited_run : Run Deployed (fun move => Succeeds move ∧ Quiet move) creditedTrace credited := by
  have late : Run Deployed (fun move => Succeeds move ∧ Quiet move)
      [settled.move joinLate, joined.move settle, SampleWorld.deployed.move join] joinedLate := by
    unfold joinedLate
    exact World.run_move _ (settled_run ⟨join_succeeds, rfl⟩ ⟨settle_succeeds, rfl⟩)
      ⟨World.move_succeeds (by decide +kernel), rfl⟩
  have early : Run Deployed (fun move => Succeeds move ∧ Quiet move)
      [joinedLate.move claimEarly, settled.move joinLate, joined.move settle,
        SampleWorld.deployed.move join] claimedEarly := by
    unfold claimedEarly
    exact World.run_move _ late ⟨World.move_succeeds (by decide +kernel), rfl⟩
  unfold credited creditedTrace
  exact World.run_move _ early ⟨World.move_succeeds (by decide +kernel), rfl⟩

end Latecomer

section Pair

/-- The validator 6 registers too. -/
def joinToo : Input Term := register 1700000200 1700000200 6 (.sample 32000000000 1000000)

@[irreducible] def joinedBoth : SampleWorld := joined.next joinToo

theorem joinToo_succeeds : Succeeds (joined.move joinToo) := World.move_succeeds (by decide +kernel)

theorem joinedBoth_run {step : Move SampleWorld (Input Term) → Prop} (joins : step (SampleWorld.deployed.move join))
    (joinsToo : step (joined.move joinToo)) :
    Run Deployed step [joined.move joinToo, SampleWorld.deployed.move join] joinedBoth := by
  unfold joinedBoth
  exact World.run_move joinToo (joined_run joins) joinsToo

@[irreducible] def settledBoth : SampleWorld := joinedBoth.next settle

theorem settleBoth_succeeds : Succeeds (joinedBoth.move settle) := World.move_succeeds (by decide +kernel)

theorem settledBoth_run {step : Move SampleWorld (Input Term) → Prop} (joins : step (SampleWorld.deployed.move join))
    (joinsToo : step (joined.move joinToo)) (settles : step (joinedBoth.move settle)) :
    Run Deployed step [joinedBoth.move settle, joined.move joinToo, SampleWorld.deployed.move join] settledBoth := by
  unfold settledBoth
  exact World.run_move settle (joinedBoth_run joins joinsToo) settles

end Pair

section InPlace

/-- The validator 5 updates its record to half of its balance in the call that rebalances. -/
def updateLevel : Input Term := update 1701814500 1701814500 5 (.sample 16000000000 1000000)

@[irreducible] def level : SampleWorld := joinedBoth.next updateLevel

/-- It withdraws the share that the update has banked, and its record stays in place. -/
def claimInPlace : Input Term := withdraw 1701814600 1701814600 5

@[irreducible] def inPlace : SampleWorld := level.next claimInPlace

def inPlaceTrace : List (Move SampleWorld (Input Term)) :=
  [level.move claimInPlace, joinedBoth.move updateLevel, joined.move joinToo, SampleWorld.deployed.move join]

/-- A quiet call finds the record of a withdrawal at the last rebalance, and an active update at the rebalance. -/
def KeepsPlace (move : Move SampleWorld (Input Term)) : Prop :=
  (Succeeds move ∧ Quiet move) ∧
  WithdrawsWhen (fun lastRebalance validator => validator.start = lastRebalance) move ∧
  UpdatesWhen (fun timestamp lastRebalance _ => timestamp = lastRebalance) move

theorem inPlace_run : Run Deployed KeepsPlace inPlaceTrace inPlace := by
  have both : Run Deployed KeepsPlace [joined.move joinToo, SampleWorld.deployed.move join] joinedBoth := by
    apply joinedBoth_run
    · exact ⟨⟨join_succeeds, rfl⟩, withdrawsWhen_of_other _ nofun, updatesWhen_of_other _ nofun⟩
    · exact ⟨⟨joinToo_succeeds, rfl⟩, withdrawsWhen_of_other _ nofun, updatesWhen_of_other _ nofun⟩
  have updated : Run Deployed KeepsPlace
      [joinedBoth.move updateLevel, joined.move joinToo, SampleWorld.deployed.move join] level := by
    unfold level
    refine World.run_move updateLevel both ⟨⟨World.move_succeeds (by decide +kernel), rfl⟩, ?_, ?_⟩
    · exact withdrawsWhen_of_other _ nofun
    · exact updatesWhen_of_found rfl (by decide +kernel)
  unfold inPlace inPlaceTrace
  refine World.run_move claimInPlace updated ⟨⟨World.move_succeeds (by decide +kernel), rfl⟩, ?_, ?_⟩
  · exact withdrawsWhen_of_found rfl (by decide +kernel)
  · exact updatesWhen_of_other _ nofun

end InPlace

section Reentry

/-- The owner is paid for the exit of the validator 5 and updates it to half of its balance. -/
def leaveUpdating : Input Term where
  env := .answering 1701814600 1701814600 (validatorRoot 5 (.sample 16000000000 1000000))
  call := ownerCall 0 (.exit 5) [ownerCall 0
    (.updateValidator 5 (List.replicate 49 zero) (.sample 16000000000 1000000) 1701814600) []]
  fresh := true

@[irreducible] def reentered : SampleWorld := settledBoth.next leaveUpdating

def reenteredTrace : List (Move SampleWorld (Input Term)) :=
  [settledBoth.move leaveUpdating, joinedBoth.move settle, joined.move joinToo,
    SampleWorld.deployed.move join]

theorem reentered_run : Run Deployed Succeeds reenteredTrace reentered := by
  unfold reentered reenteredTrace
  exact World.run_move _ (settledBoth_run join_succeeds joinToo_succeeds settleBoth_succeeds)
    (World.move_succeeds (by decide +kernel))

end Reentry

end Sample

end SmoothlyPool
