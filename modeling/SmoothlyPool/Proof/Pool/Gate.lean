import SmoothlyPool.Proof.Pool.Reentrancy
import SmoothlyPool.Proof.Pool.Removal

namespace SmoothlyPool

open Checked Pool Transition

namespace Books

/-- Every quiet step keeps the total of the balances. -/
theorem Misses.step {timestamp now : ℕ} {b next : Books} {operation : Operation} (misses : b.Misses 0)
    (tidy : b.Tidy now) (forward : now ≤ timestamp) (step : Step timestamp b operation next) :
    next.Misses 0 := by
  have late := (tidy.later forward).checkpoint
  cases step with
  | hold => exact misses
  | act opens action =>
      have settled : (b.checkpoint timestamp).Misses 0 := misses.checkpoint
      cases action with
      | settle => exact settled
      | enrol vacant narrow genesis inside =>
          have positive : 0 < timestamp := lt_of_lt_of_le (by decide) genesis
          exact settled.action (.enrol vacant narrow genesis inside) (fun _ => ⟨nofun, nofun⟩) positive
      | @claim key registered enough =>
          have consumed : ((b.checkpoint timestamp).consume (((b.checkpoint timestamp).validators
              key).claimable (b.checkpoint timestamp).lastRebalance)).Misses 0 := settled
          exact consumed.restart registered (late.opened key registered)
      | bank registered early covered inside =>
          have positive : 0 < timestamp := (Nat.zero_le _).trans_lt (early.trans_le late.current)
          exact settled.action (.bank registered early covered inside) (fun _ => ⟨nofun, nofun⟩) positive
      | @leave key present releasable =>
          have released := settled.release releasable
          have records := release_validators ((b.checkpoint timestamp).validators key) (b.checkpoint timestamp)
          have member := late.registered present
          apply Misses.remove
          · rwa [records]
          · rwa [records]

/-- `pendingSmooths` holds at most the allocations of the pending records. -/
def Allocated (b : Books) : Prop :=
  b.pendingSmooths ≤ Ledger.total Validator.Registered (Validator.allocation b.lastRebalance) b.validators

/-- A write exchanges the allocation of one record. -/
theorem Allocated.write {b next : Books} (allocated : b.Allocated) (key : Word) (record : Validator)
    (rebalanced : next.lastRebalance = b.lastRebalance)
    (records : next.validators = Function.update b.validators key record)
    (sums : next.pendingSmooths +
        (if (b.validators key).Registered then (b.validators key).allocation b.lastRebalance else 0) ≤
      b.pendingSmooths + if record.Registered then record.allocation b.lastRebalance else 0) :
    next.Allocated := by
  have exchange := Ledger.total_update Validator.Registered
    (Validator.allocation b.lastRebalance) b.validators key record
  unfold Allocated at allocated ⊢
  rw [rebalanced, records]
  omega

theorem Allocated.checkpoint {timestamp : ℕ} {b : Books} (allocated : b.Allocated) :
    (b.checkpoint timestamp).Allocated := by
  by_cases due : REBALANCE_PERIOD < timestamp - b.lastRebalance
  · rw [checkpoint_due due]
    exact Nat.zero_le _
  · rwa [checkpoint_early due]

/-- A restart moves the record to the largest allocation. -/
theorem allocation_le_restart (lastRebalance : ℕ) (validator : Validator) :
    validator.allocation lastRebalance ≤ (validator.restart lastRebalance).allocation lastRebalance := by
  have restarted : (validator.restart lastRebalance).allocation lastRebalance =
      validator.effectiveBalance.toNat * (REBALANCE_PERIOD - (lastRebalance - lastRebalance)) := if_pos le_rfl
  rw [restarted]
  unfold Validator.allocation
  split_ifs
  · exact Nat.mul_le_mul_left _ (by omega)
  · exact Nat.zero_le _

/-- Every action keeps the allocations. -/
theorem Allocated.action {timestamp : ℕ} {b next : Books} {operation : Operation} (allocated : b.Allocated)
    (tidy : b.Tidy timestamp) (action : Action timestamp b operation next) : next.Allocated := by
  cases action with
  | settle => exact allocated
  | @enrol key effectiveBalance withdrawal vacant narrow genesis inside =>
      have alive : ((b.validators key).enrol effectiveBalance withdrawal timestamp).Registered :=
        (lt_of_lt_of_le (by decide) genesis : 0 < timestamp).ne'
      refine allocated.write key ((b.validators key).enrol effectiveBalance withdrawal timestamp) rfl rfl ?_
      rw [if_neg vacant, if_pos alive, (Validator.buckets_pending _ tidy.current).2.2]
      exact le_rfl
  | @claim key registered enough =>
      have alive : ((b.validators key).restart b.lastRebalance).Registered := (tidy.opened key registered).ne'
      refine allocated.write key ((b.validators key).restart b.lastRebalance) rfl rfl ?_
      rw [if_pos registered, if_pos alive]
      exact Nat.add_le_add_left (allocation_le_restart _ _) _
  | @bank key effectiveBalance registered early covered inside =>
      have alive : ((b.validators key).bank effectiveBalance timestamp).Registered :=
        ((Nat.zero_le _).trans_lt (early.trans_le tidy.current)).ne'
      refine allocated.write key ((b.validators key).bank effectiveBalance timestamp) rfl rfl ?_
      rw [if_pos registered, if_pos alive, (Validator.buckets_settled _ early).2.2,
        (Validator.buckets_pending _ tidy.current).2.2]
      exact le_rfl
  | @leave key present releasable =>
      have registered := tidy.registered present
      have dead : ¬ Validator.unset.Registered := fun alive => alive rfl
      have records : ((b.release (b.validators key)).remove key).validators =
          Function.update b.validators key .unset :=
        congrArg (fun records : Word → Validator => Function.update records key Validator.unset)
          (release_validators _ b)
      refine allocated.write key .unset (release_lastRebalance _ b) records ?_
      rw [if_pos registered, if_neg dead, Nat.add_zero]
      by_cases late : b.lastRebalance ≤ (b.validators key).start
      · rw [release_pending late, (Validator.buckets_pending _ late).2.2]
        exact (Nat.sub_add_cancel (releasable.pending late).2.2).le
      · rw [release_settled late, (Validator.buckets_settled _ (Nat.lt_of_not_le late)).2.2]
        exact le_rfl

/-- These bounds keep every rebalance possible. -/
structure Gated (b : Books) : Prop where
  whole : b.Misses 0
  allocated : b.Allocated
  grown : b.smooths ≤ 2 ^ 129 * b.lastRebalance

/-- At most `2 ^ 64` balances of 64 bits add up to the total. -/
theorem Gated.balance_le {now : ℕ} {b : Books} (gated : b.Gated) (tidy : b.Tidy now) :
    b.totalEB + b.pendingEB ≤ 2 ^ 128 :=
  calc b.totalEB + b.pendingEB
    _ = Ledger.total Validator.Registered Validator.balance b.validators := gated.whole
    _ ≤ (Ledger.keys Validator.Registered b.validators).card * 2 ^ 64 :=
        Ledger.total_le _ _ _ fun key _ => (b.validators key).effectiveBalance.isLt.le
    _ ≤ 2 ^ 64 * 2 ^ 64 := Nat.mul_le_mul_right _ tidy.card_le
    _ = 2 ^ 128 := by norm_num

theorem Gated.pendingSmooths_le {now : ℕ} {b : Books} (gated : b.Gated) (tidy : b.Tidy now) :
    b.pendingSmooths ≤ 2 ^ 128 * REBALANCE_PERIOD := by
  have each (key : Word) : (b.validators key).allocation b.lastRebalance ≤ 2 ^ 64 * REBALANCE_PERIOD := by
    unfold Validator.allocation
    split_ifs
    · exact Nat.mul_le_mul (b.validators key).effectiveBalance.isLt.le (Nat.sub_le _ _)
    · exact Nat.zero_le _
  calc b.pendingSmooths
    _ ≤ Ledger.total Validator.Registered (Validator.allocation b.lastRebalance) b.validators :=
        gated.allocated
    _ ≤ (Ledger.keys Validator.Registered b.validators).card * (2 ^ 64 * REBALANCE_PERIOD) :=
        Ledger.total_le _ _ _ fun key _ => each key
    _ ≤ 2 ^ 64 * (2 ^ 64 * REBALANCE_PERIOD) := Nat.mul_le_mul_right _ tidy.card_le
    _ = 2 ^ 128 * REBALANCE_PERIOD := by ring

/-- A rebalance adds at most `2 ^ 129` for each second since the last one. -/
theorem Gated.checkpoint {timestamp : ℕ} {b : Books} (gated : b.Gated) (tidy : b.Tidy timestamp) :
    (b.checkpoint timestamp).Gated := by
  refine ⟨gated.whole.checkpoint, gated.allocated.checkpoint, ?_⟩
  by_cases due : REBALANCE_PERIOD < timestamp - b.lastRebalance
  · rw [checkpoint_due due]
    have balance := gated.balance_le tidy
    have pending := gated.pendingSmooths_le tidy
    obtain ⟨ellapsed, split⟩ := Nat.exists_eq_add_of_le tidy.current
    rw [split, Nat.add_sub_cancel_left] at due ⊢
    calc b.smooths + (b.totalEB * ellapsed + b.pendingEB * (ellapsed - REBALANCE_PERIOD) + b.pendingSmooths)
      _ ≤ 2 ^ 129 * b.lastRebalance +
            (b.totalEB * ellapsed + b.pendingEB * ellapsed + 2 ^ 128 * ellapsed) := by
          have late := Nat.mul_le_mul_left b.pendingEB (Nat.sub_le ellapsed REBALANCE_PERIOD)
          have period := Nat.mul_le_mul_left (2 ^ 128) due.le
          have grown := gated.grown
          omega
      _ = 2 ^ 129 * b.lastRebalance + ((b.totalEB + b.pendingEB) * ellapsed + 2 ^ 128 * ellapsed) := by ring
      _ ≤ 2 ^ 129 * b.lastRebalance + (2 ^ 128 * ellapsed + 2 ^ 128 * ellapsed) :=
          Nat.add_le_add_left (Nat.add_le_add_right (Nat.mul_le_mul_right _ balance) _) _
      _ = 2 ^ 129 * (b.lastRebalance + ellapsed) := by ring
  · rw [checkpoint_early due]
    exact gated.grown

/-- No action adds to `smooths`. -/
theorem Action.smooths_le {timestamp : ℕ} {b next : Books} {operation : Operation}
    (action : Action timestamp b operation next) :
    next.smooths ≤ b.smooths ∧ next.lastRebalance = b.lastRebalance := by
  cases action with
  | settle => exact ⟨le_rfl, rfl⟩
  | enrol vacant narrow genesis inside => exact ⟨le_rfl, rfl⟩
  | claim registered enough => exact ⟨Nat.sub_le _ _, rfl⟩
  | bank registered early covered inside => exact ⟨le_rfl, rfl⟩
  | leave present releasable => exact ⟨release_smooths_le _ b, release_lastRebalance _ b⟩

theorem Gated.step {timestamp now : ℕ} {b next : Books} {operation : Operation} (gated : b.Gated)
    (tidy : b.Tidy now) (forward : now ≤ timestamp) (step : Step timestamp b operation next) :
    next.Gated := by
  have whole := gated.whole.step tidy forward step
  have late := tidy.later forward
  cases step with
  | hold => exact gated
  | act opens action =>
      have settled := gated.checkpoint late
      obtain ⟨less, rebalanced⟩ := action.smooths_le
      refine ⟨whole, settled.allocated.action late.checkpoint action, ?_⟩
      rw [rebalanced]
      exact less.trans settled.grown

/-- A rebalance of gated books overflows nowhere. -/
theorem Gated.opens {timestamp : ℕ} {b : Books} (gated : b.Gated) (tidy : b.Tidy timestamp)
    (clock : timestamp < 2 ^ 64) : b.Opens timestamp := by
  refine ⟨tidy.current, ?_⟩
  intro _
  have settled := gated.checkpoint tidy
  have late := tidy.checkpoint
  have rebalanced := late.current.trans_lt clock
  have grown := settled.grown
  have balance := settled.balance_le late
  exact ⟨by omega, by omega⟩

end Books

section Quiet

variable {B : Type} {G : ReentrancyGuard}

/-- The pending sums of a checked pool have room for one more balance. -/
theorem allocateSmooths_of_inside {timestamp : ℕ} {effectiveBalance : Uint64} {s : Pool B G}
    (current : s.lastRebalance ≤ timestamp) (inside : timestamp - s.lastRebalance ≤ REBALANCE_PERIOD)
    (balance : s.pendingEB ≤ 2 ^ 128) (allocated : s.pendingSmooths ≤ 2 ^ 128 * REBALANCE_PERIOD) :
    ∃ after, allocateSmooths effectiveBalance.toNat timestamp s = .ok after := by
  have narrow := effectiveBalance.isLt
  have share : effectiveBalance.toNat * (REBALANCE_PERIOD - (timestamp - s.lastRebalance)) ≤
      2 ^ 64 * REBALANCE_PERIOD := Nat.mul_le_mul narrow.le (Nat.sub_le _ _)
  have period : 2 ^ 128 * REBALANCE_PERIOD + 2 ^ 64 * REBALANCE_PERIOD < 2 ^ 256 := by decide
  unfold allocateSmooths
  rw [sub_ok current, ok_bind, add_ok (by omega), ok_bind, sub_ok inside, ok_bind, mul_ok (by omega), ok_bind,
    add_ok (by omega), ok_bind]
  exact ⟨_, rfl⟩

variable [Bytes32 B]

theorem Deployed.gated {world : World B G} (deployed : Deployed world) : world.pool.books.Gated := by
  have whole := deployed.shares.whole
  obtain ⟨self, balance, created⟩ := deployed
  rw [created] at whole ⊢
  exact ⟨whole, Nat.zero_le _, Nat.zero_le _⟩

variable [DecidableEq B]

theorem quiet_gated {trace : List (Move (World B G) (Input B))} {world : World B G}
    (run : Run Deployed (fun move => Succeeds move ∧ Quiet move) trace world) :
    world.pool.books.Tidy world.now ∧ world.pool.books.Gated := by
  have moves : Run Deployed (fun move => Succeeds move ∧ Quiet move ∧ True) trace world :=
    run.weaken fun _ both => ⟨both.1, both.2, trivial⟩
  apply quiet_invariant (fun _ b => b.Gated) (fun _ deployed => deployed.gated) _ moves
  exact fun _ _ succeeds _ _ tidy gated step => gated.step tidy succeeds.1 step

/-- The rebalance at the head of a call never reverts, and after it a new balance can be allocated,
whatever the call has written to the records, the bonds and the settled balance. -/
theorem rebalance_never_reverts {trace : List (Move (World B G) (Input B))} {world : World B G}
    (run : Run Deployed (fun move => Succeeds move ∧ Quiet move) trace world) {timestamp : ℕ}
    (later : world.now ≤ timestamp) (clock : timestamp < 2 ^ 64) :
    ∃ c, world.pool.internalRebalance timestamp = .ok c ∧
      ∀ (effectiveBalance : Uint64) (validators : Word → Validator) (totalEB totalBond : ℕ), ∃ after,
        allocateSmooths effectiveBalance.toNat timestamp
          { c with validators := validators, totalEB := totalEB, totalBond := totalBond } = .ok after := by
  obtain ⟨tidy, gated⟩ := quiet_gated run
  have late := tidy.later later
  refine ⟨_, internalRebalance_of_opens (gated.opens late clock), ?_⟩
  intro effectiveBalance validators totalEB totalBond
  have settled := gated.checkpoint late
  apply allocateSmooths_of_inside
  · exact late.checkpoint.current
  · exact Books.checkpoint_inside timestamp world.pool.books
  · exact (Nat.le_add_left _ _).trans (settled.balance_le late.checkpoint)
  · exact settled.pendingSmooths_le late.checkpoint

end Quiet

/-- After a withdrawal has misplaced a balance, the next rebalance goes through. -/
theorem claimed_rebalances :
    ∃ c, Sample.claimed.pool.internalRebalance 1704000000 = .ok c ∧
      ∀ (effectiveBalance : Uint64) (validators : Word → Validator) (totalEB totalBond : ℕ), ∃ after,
        allocateSmooths effectiveBalance.toNat 1704000000
          { c with validators := validators, totalEB := totalEB, totalBond := totalBond } = .ok after :=
  rebalance_never_reverts Sample.claimed_run (by decide +kernel) (by decide)

end SmoothlyPool
