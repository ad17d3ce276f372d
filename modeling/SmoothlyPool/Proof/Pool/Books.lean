import SmoothlyPool.Construction.Runs

namespace SmoothlyPool

open Pool

namespace Validator

/-- This is the record of a new member. -/
def enrol (effectiveBalance : Uint64) (withdrawal : Address) (timestamp : ℕ) (validator : Validator) :
    Validator :=
  { validator with
    effectiveBalance := effectiveBalance
    withdrawal := withdrawal
    bond := BOND
    start := timestamp }

/-- An active update banks the time since `start` and restarts the record. -/
def bank (effectiveBalance : Uint64) (timestamp : ℕ) (validator : Validator) : Validator :=
  { validator with
    smooths := validator.smooths + (timestamp - validator.start) * validator.effectiveBalance.toNat
    start := timestamp
    effectiveBalance := effectiveBalance }

/-- A withdrawal restarts the record at the last rebalance. -/
def restart (lastRebalance : ℕ) (validator : Validator) : Validator :=
  { validator with start := lastRebalance, smooths := 0 }

/-- Subtraction on naturals gives the share without a case split. -/
theorem claimable_eq (lastRebalance : ℕ) (validator : Validator) :
    validator.claimable lastRebalance =
      (lastRebalance - validator.start) * validator.effectiveBalance.toNat + validator.smooths := by
  unfold claimable
  split_ifs with pending
  · rw [Nat.sub_eq_zero_of_le pending, Nat.zero_mul, Nat.zero_add]
  · rfl

end Validator

/-- These are the accounting fields of the pool without its ETH.  They are the abstract model of the pool. -/
structure Books where
  lastRebalance : ℕ
  totalEB : ℕ
  smooths : ℕ
  pendingEB : ℕ
  pendingSmooths : ℕ
  validators : Word → Validator

namespace Books

/-- A due rebalance credits the period to `smooths` and settles the pending balance. -/
def checkpoint (timestamp : ℕ) (b : Books) : Books :=
  if REBALANCE_PERIOD < timestamp - b.lastRebalance then
    { b with
      smooths := b.smooths + (b.totalEB * (timestamp - b.lastRebalance) +
        b.pendingEB * (timestamp - b.lastRebalance - REBALANCE_PERIOD) + b.pendingSmooths)
      totalEB := b.totalEB + b.pendingEB
      lastRebalance := timestamp
      pendingSmooths := 0
      pendingEB := 0 }
  else b

theorem checkpoint_due {timestamp : ℕ} {b : Books} (due : REBALANCE_PERIOD < timestamp - b.lastRebalance) :
    b.checkpoint timestamp =
      { b with
        smooths := b.smooths + (b.totalEB * (timestamp - b.lastRebalance) +
          b.pendingEB * (timestamp - b.lastRebalance - REBALANCE_PERIOD) + b.pendingSmooths)
        totalEB := b.totalEB + b.pendingEB
        lastRebalance := timestamp
        pendingSmooths := 0
        pendingEB := 0 } := if_pos due

theorem checkpoint_early {timestamp : ℕ} {b : Books}
    (early : ¬ REBALANCE_PERIOD < timestamp - b.lastRebalance) : b.checkpoint timestamp = b := if_neg early

/-- After a rebalance at most one period has passed since the last one. -/
theorem checkpoint_inside (timestamp : ℕ) (b : Books) :
    timestamp - (b.checkpoint timestamp).lastRebalance ≤ REBALANCE_PERIOD := by
  by_cases due : REBALANCE_PERIOD < timestamp - b.lastRebalance
  · rw [checkpoint_due due]
    exact (Nat.sub_self timestamp).trans_le (Nat.zero_le _)
  · rw [checkpoint_early due]
    exact Nat.le_of_not_lt due

@[simp] theorem checkpoint_validators (timestamp : ℕ) (b : Books) :
    (b.checkpoint timestamp).validators = b.validators := by
  unfold checkpoint
  split_ifs <;> rfl

/-- New balance is pending until the next rebalance. -/
def allocate (effectiveBalance : Uint64) (timestamp : ℕ) (b : Books) : Books :=
  { b with
    pendingEB := b.pendingEB + effectiveBalance.toNat
    pendingSmooths := b.pendingSmooths +
      effectiveBalance.toNat * (REBALANCE_PERIOD - (timestamp - b.lastRebalance)) }

/-- This operation replaces one record. -/
def write (key : Word) (record : Validator) (b : Books) : Books :=
  { b with validators := Function.update b.validators key record }

/-- This is the operation of `register`. -/
def enrol (key : Word) (effectiveBalance : Uint64) (withdrawal : Address) (timestamp : ℕ) (b : Books) :
    Books :=
  (b.write key ((b.validators key).enrol effectiveBalance withdrawal timestamp)).allocate
    effectiveBalance timestamp

/-- This is the operation of an active update. -/
def bank (key : Word) (effectiveBalance : Uint64) (timestamp : ℕ) (b : Books) : Books :=
  ({ b with totalEB := b.totalEB - (b.validators key).effectiveBalance.toNat }.write key
    ((b.validators key).bank effectiveBalance timestamp)).allocate effectiveBalance timestamp

@[simp] theorem enrol_validators (key : Word) (effectiveBalance : Uint64) (withdrawal : Address)
    (timestamp : ℕ) (b : Books) : (b.enrol key effectiveBalance withdrawal timestamp).validators =
      Function.update b.validators key
        ((b.validators key).enrol effectiveBalance withdrawal timestamp) := rfl

@[simp] theorem bank_validators (key : Word) (effectiveBalance : Uint64) (timestamp : ℕ) (b : Books) :
    (b.bank key effectiveBalance timestamp).validators =
      Function.update b.validators key ((b.validators key).bank effectiveBalance timestamp) := rfl

/-- The claimed share leaves `smooths`. -/
def consume (share : ℕ) (b : Books) : Books := { b with smooths := b.smooths - share }

/-- A withdrawal ends by restarting the record. -/
def restart (key : Word) (b : Books) : Books :=
  b.write key ((b.validators key).restart b.lastRebalance)

/-- `_exit` takes the validator out of the aggregates. -/
def release (validator : Validator) (b : Books) : Books :=
  if b.lastRebalance ≤ validator.start then
    { b with
      pendingEB := b.pendingEB - validator.effectiveBalance.toNat
      pendingSmooths := b.pendingSmooths - validator.effectiveBalance.toNat *
        (REBALANCE_PERIOD - (validator.start - b.lastRebalance))
      smooths := b.smooths - validator.claimable b.lastRebalance }
  else
    { b with
      totalEB := b.totalEB - validator.effectiveBalance.toNat
      smooths := b.smooths - validator.claimable b.lastRebalance }

theorem release_pending {validator : Validator} {b : Books} (pending : b.lastRebalance ≤ validator.start) :
    b.release validator =
      { b with
        pendingEB := b.pendingEB - validator.effectiveBalance.toNat
        pendingSmooths := b.pendingSmooths - validator.effectiveBalance.toNat *
          (REBALANCE_PERIOD - (validator.start - b.lastRebalance))
        smooths := b.smooths - validator.claimable b.lastRebalance } := if_pos pending

theorem release_settled {validator : Validator} {b : Books}
    (settled : ¬ b.lastRebalance ≤ validator.start) :
    b.release validator =
      { b with
        totalEB := b.totalEB - validator.effectiveBalance.toNat
        smooths := b.smooths - validator.claimable b.lastRebalance } := if_neg settled

@[simp] theorem release_validators (validator : Validator) (b : Books) :
    (b.release validator).validators = b.validators := by
  unfold release
  split_ifs <;> rfl

@[simp] theorem release_lastRebalance (validator : Validator) (b : Books) :
    (b.release validator).lastRebalance = b.lastRebalance := by
  unfold release
  split_ifs <;> rfl

theorem release_smooths_le (validator : Validator) (b : Books) : (b.release validator).smooths ≤ b.smooths := by
  unfold release
  split_ifs <;> exact Nat.sub_le _ _

/-- The subtractions of `_exit` on the aggregates do not underflow. -/
structure Releasable (validator : Validator) (b : Books) : Prop where
  pending : b.lastRebalance ≤ validator.start →
    validator.effectiveBalance.toNat ≤ b.pendingEB ∧
    validator.start - b.lastRebalance ≤ REBALANCE_PERIOD ∧
    validator.effectiveBalance.toNat * (REBALANCE_PERIOD - (validator.start - b.lastRebalance)) ≤
      b.pendingSmooths
  settled : ¬ b.lastRebalance ≤ validator.start → validator.effectiveBalance.toNat ≤ b.totalEB
  shares : validator.claimable b.lastRebalance ≤ b.smooths

/-- `_exit` ends by deleting the record. -/
def remove (key : Word) (b : Books) : Books := b.write key .unset

/-- A rebalance is possible: time has not gone back, and the sums of a due rebalance fit in 256 bits. -/
structure Opens (timestamp : ℕ) (b : Books) : Prop where
  ordered : b.lastRebalance ≤ timestamp
  fits : REBALANCE_PERIOD < timestamp - b.lastRebalance →
    (b.checkpoint timestamp).smooths < 2 ^ 256 ∧ (b.checkpoint timestamp).totalEB < 2 ^ 256

/-- These are the operations of the pool on its books. -/
inductive Operation where
  /-- A plain transfer of ETH. -/
  | hold
  | settle
  | enrol (key : Word) (effectiveBalance : Uint64) (withdrawal : Address)
  | claim (key : Word)
  | bank (key : Word) (effectiveBalance : Uint64)
  | leave (key : Word)

/-- An action applies an operation at a timestamp where its guards hold. -/
inductive Action (timestamp : ℕ) (b : Books) : Operation → Books → Prop
  | settle : Action timestamp b .settle b
  | enrol {key : Word} {effectiveBalance : Uint64} {withdrawal : Address}
      (vacant : ¬ (b.validators key).Registered) (narrow : key.toNat < 2 ^ 64)
      (genesis : BeaconOracle.BEACON_GENESIS ≤ timestamp)
      (inside : timestamp - b.lastRebalance ≤ REBALANCE_PERIOD) :
      Action timestamp b (.enrol key effectiveBalance withdrawal)
        (b.enrol key effectiveBalance withdrawal timestamp)
  | claim {key : Word} (registered : (b.validators key).Registered)
      (enough : (b.validators key).claimable b.lastRebalance ≤ b.smooths) :
      Action timestamp b (.claim key)
        ((b.consume ((b.validators key).claimable b.lastRebalance)).restart key)
  | bank {key : Word} {effectiveBalance : Uint64} (registered : (b.validators key).Registered)
      (settled : (b.validators key).start < b.lastRebalance)
      (covered : (b.validators key).effectiveBalance.toNat ≤ b.totalEB)
      (inside : timestamp - b.lastRebalance ≤ REBALANCE_PERIOD) :
      Action timestamp b (.bank key effectiveBalance) (b.bank key effectiveBalance timestamp)
  | leave {key : Word} (present : b.validators key ≠ .unset)
      (releasable : b.Releasable (b.validators key)) :
      Action timestamp b (.leave key) ((b.release (b.validators key)).remove key)

/-- Every call but a plain transfer starts with a rebalance. -/
inductive Step (timestamp : ℕ) (b : Books) : Operation → Books → Prop
  | hold : Step timestamp b .hold b
  | act {operation : Operation} {next : Books} (opens : b.Opens timestamp)
      (action : Action timestamp (b.checkpoint timestamp) operation next) :
      Step timestamp b operation next

end Books

end SmoothlyPool
