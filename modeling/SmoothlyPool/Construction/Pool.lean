/-
This file embeds the state and the internal functions of `SmoothlyPoolV2.sol`.
-/

import SmoothlyPool.Construction.BeaconOracle

namespace SmoothlyPool

open Checked

/-- The pool inherits `nonReentrant` from the OpenZeppelin guard.
The guard refuses a second entry until the first one has ended. -/
structure ReentrancyGuard where
  Status : Type
  notEntered : Status
  entered : Status
  before : Status → Option Status
  after : Status → Status
  before_notEntered : before notEntered = some entered
  before_entered : before entered = none
  after_entered : after entered = notEntered

/-- This is the record of one registered validator. -/
structure Validator where
  effectiveBalance : Uint64
  withdrawal : Address
  bond : ℕ
  start : ℕ
  smooths : ℕ
deriving DecidableEq

/-- `delete` restores the default record. -/
def Validator.unset : Validator := ⟨0, 0, 0, 0, 0⟩

structure Pool (B : Type) (G : ReentrancyGuard) where
  /-- `address(this)` -/
  self : Address
  /-- `address(this).balance` -/
  balance : ℕ
  lastRebalance : ℕ
  totalEB : ℕ
  totalBond : ℕ
  smooths : ℕ
  pendingEB : ℕ
  pendingSmooths : ℕ
  validators : Word → Validator
  status : G.Status
  transient : HashMap B

/-- No account can call from the zero address. -/
structure Msg where
  sender : Address
  sender_ne_zero : sender ≠ 0
  value : ℕ

namespace Pool

/-- `21 days` -/
def REBALANCE_PERIOD : ℕ := 21 * 24 * 60 * 60

/-- `0.1 ether` -/
def BOND : ℕ := 10 ^ 17

def BPS : ℕ := 10 ^ 18

def ZERO_VALIDATOR_INDEX : ℕ := 798245441765376

variable {B : Type} {G : ReentrancyGuard}

/-- The constructor stores the deployment time. -/
def constructor [Bytes32 B] (self : Address) (balance timestamp : ℕ) : Pool B G where
  self := self
  balance := balance
  lastRebalance := timestamp
  totalEB := 0
  totalBond := 0
  smooths := 0
  pendingEB := 0
  pendingSmooths := 0
  validators := fun _ => .unset
  status := G.notEntered
  transient := .empty

def totalETH (s : Pool B G) : Except Revert ℕ := sub .arithmetic s.balance s.totalBond

/-- This is `_rebalance`. -/
def internalRebalance (timestamp : ℕ) (s : Pool B G) : Except Revert (Pool B G) := do
  let ellapsed ← sub .arithmetic timestamp s.lastRebalance
  if REBALANCE_PERIOD < ellapsed then
    let settled ← mul .arithmetic s.totalEB ellapsed
    let late ← sub .arithmetic ellapsed REBALANCE_PERIOD
    let pending ← mul .arithmetic s.pendingEB late
    let sum ← add .arithmetic settled pending
    let sum ← add .arithmetic sum s.pendingSmooths
    let smooths ← add .arithmetic s.smooths sum
    let totalEB ← add .arithmetic s.totalEB s.pendingEB
    .ok { s with
      smooths := smooths
      totalEB := totalEB
      lastRebalance := timestamp
      pendingSmooths := 0
      pendingEB := 0 }
  else .ok s

/-- This is `_allocateSmooths`. -/
def allocateSmooths (effectiveBalance timestamp : ℕ) (s : Pool B G) : Except Revert (Pool B G) := do
  let ellapsed ← sub .arithmetic timestamp s.lastRebalance
  let pendingEB ← add .arithmetic s.pendingEB effectiveBalance
  let remaining ← sub .arithmetic REBALANCE_PERIOD ellapsed
  let allocated ← mul .arithmetic effectiveBalance remaining
  let pendingSmooths ← add .arithmetic s.pendingSmooths allocated
  .ok { s with pendingEB := pendingEB, pendingSmooths := pendingSmooths }

/-- This is `_getShares`. -/
def getShares (validator : Validator) (s : Pool B G) : Except Revert ℕ := do
  let ellapsed ← sub .arithmetic s.lastRebalance validator.start
  let share ← mul .arithmetic ellapsed validator.effectiveBalance.toNat
  add .arithmetic share validator.smooths

/-- This is the code of an ETH recipient.
It runs on the pool after the transfer, and it either rejects the transfer or returns the pool
that its own calls leave behind. -/
abbrev Callback (B : Type) (G : ReentrancyGuard) := Pool B G → Except Revert (Pool B G)

/-- This is `(bool sent, ) = recipient.call{ value: amount }("")` with its `require(sent)`.
A transfer to the pool itself runs `receive()`, which changes nothing. -/
def sendEther (callback : Callback B G) (recipient : Address) (amount : ℕ) (s : Pool B G) :
    Except Revert (Pool B G) :=
  if s.balance < amount then .error .failedToSendEther
  else if recipient = s.self then .ok s
  else
    match callback { s with balance := s.balance - amount } with
    | .ok s => .ok s
    | .error _ => .error .failedToSendEther

def nonReentrantBefore (s : Pool B G) : Except Revert (Pool B G) :=
  match G.before s.status with
  | some status => .ok { s with status := status }
  | none => .error .reentrantCall

def nonReentrantAfter (s : Pool B G) : Pool B G := { s with status := G.after s.status }

/-- This part of `_exit` takes the validator out of the aggregates. -/
def releaseShares (validator : Validator) (s : Pool B G) : Except Revert (Pool B G) := do
  if s.lastRebalance ≤ validator.start then
    let pendingEB ← sub .arithmetic s.pendingEB validator.effectiveBalance.toNat
    let late ← sub .arithmetic validator.start s.lastRebalance
    let remaining ← sub .arithmetic REBALANCE_PERIOD late
    let allocated ← mul .arithmetic validator.effectiveBalance.toNat remaining
    let pendingSmooths ← sub .arithmetic s.pendingSmooths allocated
    let smooths ← sub .arithmetic s.smooths validator.smooths
    .ok { s with pendingEB := pendingEB, pendingSmooths := pendingSmooths, smooths := smooths }
  else
    let totalEB ← sub .arithmetic s.totalEB validator.effectiveBalance.toNat
    let share ← getShares validator s
    let smooths ← sub .arithmetic s.smooths share
    .ok { s with totalEB := totalEB, smooths := smooths }

/-- This is `_exit`. -/
def internalExit (callback : Callback B G) (validatorIndex : Word) (recipient : Address)
    (s : Pool B G) : Except Revert (Pool B G) := do
  let s ← nonReentrantBefore s
  let validator := s.validators validatorIndex
  let s ← releaseShares validator s
  let totalBond ← sub .arithmetic s.totalBond validator.bond
  let s := { s with totalBond := totalBond }
  let s ← sendEther callback recipient validator.bond s
  let s := { s with validators := Function.update s.validators validatorIndex .unset }
  .ok (nonReentrantAfter s)

/-- This is the share that `_withdraw` selects. -/
def claimedShare (validator : Validator) (s : Pool B G) : Except Revert ℕ :=
  if s.lastRebalance ≤ validator.start then .ok validator.smooths else getShares validator s

/-- This is `_withdraw`. -/
def internalWithdraw (callback : Callback B G) (validator : Validator) (s : Pool B G) :
    Except Revert (ℕ × Pool B G) := do
  let s ← nonReentrantBefore s
  require (s.smooths ≠ 0) .withdrawalsDisabled
  let share ← claimedShare validator s
  let scaled ← mul .arithmetic share BPS
  let part ← div .divisionByZero scaled s.smooths
  let total ← totalETH s
  let product ← mul .arithmetic part total
  let eth ← div .divisionByZero product BPS
  let smooths ← sub .arithmetic s.smooths share
  let s := { s with smooths := smooths }
  let s ← sendEther callback validator.withdrawal eth s
  .ok (eth, nonReentrantAfter s)

end Pool

end SmoothlyPool
