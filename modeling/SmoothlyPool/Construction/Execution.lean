/-
This file embeds the external functions of `SmoothlyPoolV2.sol` and the calls that reach them.
-/

import SmoothlyPool.Construction.Pool
import SmoothlyPool.Library.Run

namespace SmoothlyPool

open Checked

namespace Pool

variable {B : Type} {G : ReentrancyGuard}

/-- A function that is not payable refuses ETH. -/
def nonPayable (msg : Msg) : Except Revert Unit := require (msg.value = 0) .notPayable

/-- The constant and the index are `uint64`, so their sum is checked at 64 bits. -/
def validatorGIndex (validatorIndex : Uint64) : Except Revert ℕ := do
  require (ZERO_VALIDATOR_INDEX + validatorIndex.toNat < 2 ^ 64) .arithmetic
  .ok (ZERO_VALIDATOR_INDEX + validatorIndex.toNat)

def rebalance (env : Env B) (msg : Msg) (s : Pool B G) : Except Revert (Pool B G) := do
  nonPayable msg
  internalRebalance env.timestamp s

variable [Bytes32 B] [DecidableEq B]

def register (env : Env B) (msg : Msg) (validatorIndex : Uint64) (validatorProof : List B)
    (validator : BeaconChainValidator) (ts : Uint64) (s : Pool B G) : Except Revert (Pool B G) := do
  let s ← internalRebalance env.timestamp s
  let key : Word := validatorIndex.setWidth 256
  require (msg.value = BOND) .bondNotSatisfied
  require (¬ 0 < (s.validators key).start) .alreadyRegistered
  let time := env.timestamp
  let gIndex ← validatorGIndex validatorIndex
  let withdrawal ← BeaconOracle.withdrawalToAddress validator.withdrawalCredentials
  let active ← BeaconOracle.isActiveValidator env validator
  require (active = true) .inactiveValidator
  let _ ← BeaconOracle.verifyValidator env validatorProof validator gIndex ts
  let record : Validator := { s.validators key with
    effectiveBalance := validator.effectiveBalance
    withdrawal := withdrawal
    bond := BOND
    start := time }
  let s := { s with validators := Function.update s.validators key record }
  let totalBond ← add .arithmetic s.totalBond BOND
  allocateSmooths validator.effectiveBalance.toNat time { s with totalBond := totalBond }

def withdraw (env : Env B) (msg : Msg) (callback : Callback B G) (indices : List ℕ) (proof : List B)
    (validatorIndex : Word) (timestamp : Uint64) (s : Pool B G) : Except Revert (Pool B G) := do
  nonPayable msg
  let s ← internalRebalance env.timestamp s
  let validator := s.validators validatorIndex
  require (validator.start ≠ 0) .unregistered
  require (¬ timestamp.toNat < validator.start) .invalidBlockTimestamp
  let total ← totalETH s
  require (total ≠ 0) .emptyPool
  let (_, map) ← BeaconOracle.verifyFeeRecipient env indices proof validatorIndex s.self timestamp s.transient
  let s := { s with transient := map }
  let (_, s) ← internalWithdraw callback validator s
  let record := { s.validators validatorIndex with start := s.lastRebalance, smooths := 0 }
  .ok { s with validators := Function.update s.validators validatorIndex record }

/-- The active branch of `updateValidator` banks the share and restarts the record. -/
def updateActive (env : Env B) (key : Word) (validator : BeaconChainValidator) (s : Pool B G) :
    Except Revert (Pool B G) := do
  let stored := s.validators key
  require (¬ s.lastRebalance ≤ stored.start) .updateNotAvailable
  let time := env.timestamp
  let ellapsed ← sub .arithmetic time stored.start
  let share ← mul .arithmetic ellapsed stored.effectiveBalance.toNat
  let totalEB ← sub .arithmetic s.totalEB stored.effectiveBalance.toNat
  let smooths ← add .arithmetic stored.smooths share
  let record : Validator := { stored with
    smooths := smooths
    start := time
    effectiveBalance := validator.effectiveBalance }
  allocateSmooths validator.effectiveBalance.toNat time
    { s with totalEB := totalEB, validators := Function.update s.validators key record }

def updateValidator (env : Env B) (msg : Msg) (callback : Callback B G) (validatorIndex : Uint64)
    (validatorProof : List B) (validator : BeaconChainValidator) (ts : Uint64) (s : Pool B G) :
    Except Revert (Pool B G) := do
  nonPayable msg
  let s ← internalRebalance env.timestamp s
  let key : Word := validatorIndex.setWidth 256
  require ((s.validators key).start ≠ 0) .unregistered
  let gIndex ← validatorGIndex validatorIndex
  let _ ← BeaconOracle.verifyValidator env validatorProof validator gIndex ts
  let active ← BeaconOracle.isActiveValidator env validator
  if active = true then updateActive env key validator s
  else internalExit callback key (s.validators key).withdrawal s

def slashBadFeeRecipient (env : Env B) (msg : Msg) (callback : Callback B G) (indices : List ℕ)
    (proof : List B) (validatorIndex : Word) (feeRecipient : Address) (timestamp : Uint64)
    (s : Pool B G) : Except Revert (Pool B G) := do
  nonPayable msg
  let s ← internalRebalance env.timestamp s
  require ((s.validators validatorIndex).start ≠ 0) .unregistered
  let (_, map) ← BeaconOracle.verifyFeeRecipient env indices proof validatorIndex feeRecipient timestamp
    s.transient
  let s := { s with transient := map }
  require (feeRecipient ≠ s.self) .correctFeeRecipient
  internalExit callback validatorIndex msg.sender s

def exit (env : Env B) (msg : Msg) (callback : Callback B G) (validatorIndex : Word) (s : Pool B G) :
    Except Revert (Pool B G) := do
  nonPayable msg
  let s ← internalRebalance env.timestamp s
  let validator := s.validators validatorIndex
  require (msg.sender = validator.withdrawal) .notOwner
  internalExit callback validatorIndex validator.withdrawal s

end Pool

/-- These are the external functions with their arguments. -/
inductive Message (B : Type) where
  | receive
  | donateETH
  | register (validatorIndex : Uint64) (validatorProof : List B) (validator : BeaconChainValidator)
      (ts : Uint64)
  | withdraw (indices : List ℕ) (proof : List B) (validatorIndex : Word) (timestamp : Uint64)
  | updateValidator (validatorIndex : Uint64) (validatorProof : List B)
      (validator : BeaconChainValidator) (ts : Uint64)
  | slashBadFeeRecipient (indices : List ℕ) (proof : List B) (validatorIndex : Word)
      (feeRecipient : Address) (timestamp : Uint64)
  | exit (validatorIndex : Word)
  | rebalance

/-- A call names its caller, its message, and what the recipient of ETH does when it is paid:
whether it accepts, and which calls it makes back into the pool. -/
inductive Call (B : Type) where
  | mk (msg : Msg) (message : Message B) (accepts : Bool) (reentry : List (Call B))

namespace Call

variable {B : Type}

def msg : Call B → Msg | mk msg _ _ _ => msg

def message : Call B → Message B | mk _ message _ _ => message

def accepts : Call B → Bool | mk _ _ accepts _ => accepts

def reentry : Call B → List (Call B) | mk _ _ _ reentry => reentry

end Call

section Execute

variable {B : Type} {G : ReentrancyGuard} [Bytes32 B] [DecidableEq B]

/-- The dispatcher runs the called function. -/
def dispatch (env : Env B) (msg : Msg) (callback : Pool.Callback B G) (s : Pool B G) :
    Message B → Except Revert (Pool B G)
  | .receive => .ok s
  | .donateETH => .ok s
  | .register validatorIndex validatorProof validator ts =>
      s.register env msg validatorIndex validatorProof validator ts
  | .withdraw indices proof validatorIndex timestamp =>
      s.withdraw env msg callback indices proof validatorIndex timestamp
  | .updateValidator validatorIndex validatorProof validator ts =>
      s.updateValidator env msg callback validatorIndex validatorProof validator ts
  | .slashBadFeeRecipient indices proof validatorIndex feeRecipient timestamp =>
      s.slashBadFeeRecipient env msg callback indices proof validatorIndex feeRecipient timestamp
  | .exit validatorIndex => s.exit env msg callback validatorIndex
  | .rebalance => s.rebalance env msg

mutual

/-- The ETH of a call arrives before the called function runs. -/
def Call.execute (env : Env B) : Call B → Pool B G → Except Revert (Pool B G)
  | .mk msg message accepts reentry, s =>
      dispatch env msg
        (fun paid => if accepts then .ok (executeAll env reentry paid) else .error .failedToSendEther)
        { s with balance := s.balance + msg.value } message

/-- The caller catches a call that reverts, and the pool stays as it was. -/
def executeAll (env : Env B) : List (Call B) → Pool B G → Pool B G
  | [], s => s
  | call :: rest, s =>
      match call.execute env s with
      | .ok next => executeAll env rest next
      | .error _ => executeAll env rest s

end

/-- This is the code that runs when the recipient of the call is paid. -/
def Call.callback (env : Env B) (call : Call B) : Pool.Callback B G := fun paid =>
  if call.accepts then .ok (executeAll env call.reentry paid) else .error .failedToSendEther

theorem Call.execute_eq (env : Env B) (call : Call B) (s : Pool B G) :
    call.execute env s =
      dispatch env call.msg (call.callback env) { s with balance := s.balance + call.msg.value }
        call.message := by
  cases call
  rfl

end Execute

end SmoothlyPool
