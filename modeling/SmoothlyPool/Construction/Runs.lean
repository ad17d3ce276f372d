/-
This file defines the runs of the pool: sequences of successful calls at non-decreasing times.
-/

import SmoothlyPool.Construction.Execution
import SmoothlyPool.Library.Ledger
import Mathlib.Data.FinEnum

namespace SmoothlyPool

open Transition

variable {B : Type} {G : ReentrancyGuard}

/-- A world is the pool at the timestamp of the newest block. -/
structure World (B : Type) (G : ReentrancyGuard) where
  now : ℕ
  pool : Pool B G

/-- One top-level call.  A fresh call opens a new transaction. -/
structure Input (B : Type) where
  env : Env B
  call : Call B
  fresh : Bool

/-- A new transaction starts with empty transient storage. -/
def Pool.begin [Bytes32 B] (fresh : Bool) (s : Pool B G) : Pool B G :=
  if fresh then { s with transient := .empty } else s

/-- The ETH of a call arrives first. -/
def Pool.receive (msg : Msg) (s : Pool B G) : Pool B G := { s with balance := s.balance + msg.value }

def Deployed [Bytes32 B] (world : World B G) : Prop :=
  ∃ self balance, world.pool = Pool.constructor self balance world.now

/-- A call that reverts leaves the pool as it was, so a step is a call that succeeds. -/
def Succeeds [Bytes32 B] [DecidableEq B] (move : Move (World B G) (Input B)) : Prop :=
  move.before.now ≤ move.label.env.timestamp ∧
  move.after.now = move.label.env.timestamp ∧
  move.label.call.execute move.label.env (move.before.pool.begin move.label.fresh) = .ok move.after.pool

/-- The recipients of ETH make no call back into the pool. -/
def Quiet (move : Move (World B G) (Input B)) : Prop := move.label.call.reentry = []

/-- The condition holds of the record that a withdrawal finds after the rebalance at its head.
It compares the record with the time of that rebalance. -/
def WithdrawsWhen (condition : ℕ → Validator → Prop) (move : Move (World B G) (Input B)) : Prop :=
  ∀ indices proof validatorIndex timestamp c,
    move.label.call.message = .withdraw indices proof validatorIndex timestamp →
    move.before.pool.internalRebalance move.label.env.timestamp = .ok c →
    condition c.lastRebalance (c.validators validatorIndex)

/-- The condition holds of the record that an active update finds after the rebalance at its head.
It compares the record with the present and with the time of that rebalance. -/
def UpdatesWhen (condition : ℕ → ℕ → Validator → Prop) (move : Move (World B G) (Input B)) : Prop :=
  ∀ validatorIndex validatorProof validator ts c,
    move.label.call.message = .updateValidator validatorIndex validatorProof validator ts →
    BeaconOracle.isActiveValidator move.label.env validator = .ok true →
    move.before.pool.internalRebalance move.label.env.timestamp = .ok c →
    condition move.label.env.timestamp c.lastRebalance (c.validators (validatorIndex.setWidth 256))

namespace Validator

/-- A validator is registered while its `start` is set. -/
def Registered (validator : Validator) : Prop := validator.start ≠ 0

instance (validator : Validator) : Decidable validator.Registered :=
  inferInstanceAs (Decidable (_ ≠ _))

/-- This is the share that `_withdraw` computes for a validator. -/
def claimable (lastRebalance : ℕ) (validator : Validator) : ℕ :=
  if lastRebalance ≤ validator.start then validator.smooths
  else (lastRebalance - validator.start) * validator.effectiveBalance.toNat + validator.smooths

end Validator

/-- These are the indices of the registered validators. -/
def Pool.registered (s : Pool B G) : Finset Word :=
  Ledger.keys Validator.Registered s.validators

end SmoothlyPool
