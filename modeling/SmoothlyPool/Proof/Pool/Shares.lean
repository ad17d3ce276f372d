import SmoothlyPool.Proof.Pool.Refine
import SmoothlyPool.Proof.Scenario

namespace SmoothlyPool

open Pool Transition

namespace Validator

def balance (validator : Validator) : ℕ := validator.effectiveBalance.toNat

/-- This is the credit of the last period that a late start misses. -/
def missed (lastRebalance : ℕ) (validator : Validator) : ℕ :=
  validator.balance * (validator.start - lastRebalance)

/-- A later rebalance credits the whole period except for the missed part. -/
theorem claimable_advance {lastRebalance timestamp : ℕ} (validator : Validator)
    (forward : lastRebalance ≤ timestamp) (past : validator.start ≤ timestamp) :
    validator.claimable timestamp + validator.missed lastRebalance =
      validator.claimable lastRebalance + (timestamp - lastRebalance) * validator.balance := by
  rw [claimable_eq, claimable_eq, missed, balance]
  have split : (timestamp - validator.start) + (validator.start - lastRebalance) =
      (lastRebalance - validator.start) + (timestamp - lastRebalance) := by omega
  calc (timestamp - validator.start) * validator.effectiveBalance.toNat + validator.smooths +
        validator.effectiveBalance.toNat * (validator.start - lastRebalance)
    _ = ((timestamp - validator.start) + (validator.start - lastRebalance)) *
          validator.effectiveBalance.toNat + validator.smooths := by ring
    _ = ((lastRebalance - validator.start) + (timestamp - lastRebalance)) *
          validator.effectiveBalance.toNat + validator.smooths := by rw [split]
    _ = (lastRebalance - validator.start) * validator.effectiveBalance.toNat + validator.smooths +
          (timestamp - lastRebalance) * validator.effectiveBalance.toNat := by ring

theorem missed_settled {lastRebalance : ℕ} {validator : Validator}
    (settled : validator.start ≤ lastRebalance) : validator.missed lastRebalance = 0 := by
  rw [missed, Nat.sub_eq_zero_of_le settled, Nat.mul_zero]

/-- A restarted record has nothing left to claim. -/
theorem claimable_restart (lastRebalance : ℕ) (validator : Validator) :
    (validator.restart lastRebalance).claimable lastRebalance = 0 := if_pos le_rfl

/-- A record that is banked at a rebalance keeps its share. -/
theorem claimable_bank {timestamp lastRebalance : ℕ} {effectiveBalance : Uint64} (validator : Validator)
    (current : lastRebalance ≤ timestamp)
    (level : timestamp = lastRebalance ∨ validator.effectiveBalance = 0) :
    (validator.bank effectiveBalance timestamp).claimable lastRebalance =
      validator.claimable lastRebalance := by
  rw [claimable_eq lastRebalance validator]
  have banked : (validator.bank effectiveBalance timestamp).claimable lastRebalance =
      validator.smooths + (timestamp - validator.start) * validator.effectiveBalance.toNat :=
    if_pos current
  rw [banked]
  rcases level with same | idle
  · rw [same, Nat.add_comm]
  · rw [idle]
    simp

end Validator

namespace Books

/-- The bulk amounts add up to the lazy shares. -/
structure Shares (b : Books) : Prop where
  whole : b.totalEB + b.pendingEB = Ledger.total Validator.Registered Validator.balance b.validators
  period : b.pendingSmooths +
      Ledger.total Validator.Registered (Validator.missed b.lastRebalance) b.validators =
    REBALANCE_PERIOD * b.pendingEB
  smooths : b.smooths =
    Ledger.total Validator.Registered (Validator.claimable b.lastRebalance) b.validators

/-- A write exchanges the share of one record. -/
theorem Shares.write {b next : Books} (shares : b.Shares) (key : Word) (record : Validator)
    (rebalanced : next.lastRebalance = b.lastRebalance)
    (records : next.validators = Function.update b.validators key record)
    (whole : next.totalEB + next.pendingEB +
        (if (b.validators key).Registered then (b.validators key).balance else 0) =
      b.totalEB + b.pendingEB + if record.Registered then record.balance else 0)
    (period : next.pendingSmooths + REBALANCE_PERIOD * b.pendingEB +
        (if record.Registered then record.missed b.lastRebalance else 0) =
      b.pendingSmooths + REBALANCE_PERIOD * next.pendingEB +
        if (b.validators key).Registered then (b.validators key).missed b.lastRebalance else 0)
    (smooths : next.smooths +
        (if (b.validators key).Registered then (b.validators key).claimable b.lastRebalance else 0) =
      b.smooths + if record.Registered then record.claimable b.lastRebalance else 0) :
    next.Shares := by
  obtain ⟨wholeBefore, periodBefore, smoothsBefore⟩ := shares
  have wholeExchange := Ledger.total_update Validator.Registered Validator.balance b.validators key record
  have periodExchange := Ledger.total_update Validator.Registered
    (Validator.missed b.lastRebalance) b.validators key record
  have smoothsExchange := Ledger.total_update Validator.Registered
    (Validator.claimable b.lastRebalance) b.validators key record
  constructor <;> (try rw [rebalanced]) <;> rw [records] <;> omega

/-- A due rebalance credits every registered validator for the period. -/
theorem Shares.checkpoint {timestamp : ℕ} {b : Books} (shares : b.Shares) (tidy : b.Tidy timestamp) :
    (b.checkpoint timestamp).Shares := by
  obtain ⟨whole, period, smooths⟩ := shares
  by_cases due : REBALANCE_PERIOD < timestamp - b.lastRebalance
  · have credited : Ledger.total Validator.Registered (Validator.claimable timestamp) b.validators +
          Ledger.total Validator.Registered (Validator.missed b.lastRebalance) b.validators =
        b.smooths + (timestamp - b.lastRebalance) * (b.totalEB + b.pendingEB) := by
      rw [← Ledger.total_add, smooths, whole, ← Ledger.total_mul_left, ← Ledger.total_add]
      apply Ledger.total_congr
      intro key _
      exact Validator.claimable_advance _ tidy.current (tidy.past key)
    have periods : b.pendingEB * (timestamp - b.lastRebalance - REBALANCE_PERIOD) +
        REBALANCE_PERIOD * b.pendingEB = b.pendingEB * (timestamp - b.lastRebalance) := by
      rw [Nat.mul_comm REBALANCE_PERIOD, ← Nat.mul_add, Nat.sub_add_cancel due.le]
    have caught (key : Word) : (b.validators key).missed timestamp = 0 :=
      Validator.missed_settled (tidy.past key)
    rw [checkpoint_due due]
    refine ⟨?_, ?_, ?_⟩
    · exact whole
    · have none : Ledger.total Validator.Registered (Validator.missed timestamp) b.validators = 0 :=
        Finset.sum_eq_zero fun key _ => caught key
      show 0 + Ledger.total Validator.Registered (Validator.missed timestamp) b.validators =
        REBALANCE_PERIOD * 0
      rw [none, Nat.mul_zero]
    · have spread : (timestamp - b.lastRebalance) * (b.totalEB + b.pendingEB) =
          b.totalEB * (timestamp - b.lastRebalance) + b.pendingEB * (timestamp - b.lastRebalance) := by
        ring
      show b.smooths + (b.totalEB * (timestamp - b.lastRebalance) +
          b.pendingEB * (timestamp - b.lastRebalance - REBALANCE_PERIOD) + b.pendingSmooths) =
        Ledger.total Validator.Registered (Validator.claimable timestamp) b.validators
      omega
  · rw [checkpoint_early due]
    exact ⟨whole, period, smooths⟩

/-- A new member joins without a share. -/
theorem Shares.enrol {timestamp : ℕ} {b : Books} {key : Word} {effectiveBalance : Uint64}
    {withdrawal : Address} (shares : b.Shares) (current : b.lastRebalance ≤ timestamp)
    (opened : 0 < timestamp) (inside : timestamp - b.lastRebalance ≤ REBALANCE_PERIOD)
    (vacant : b.validators key = .unset) :
    (b.enrol key effectiveBalance withdrawal timestamp).Shares := by
  have alive : ((b.validators key).enrol effectiveBalance withdrawal timestamp).Registered := opened.ne'
  have dead : ¬ (b.validators key).Registered := by
    rw [vacant]
    exact fun registered => registered rfl
  refine shares.write key ((b.validators key).enrol effectiveBalance withdrawal timestamp) rfl rfl
    ?_ ?_ ?_ <;> rw [if_neg dead, if_pos alive]
  · show b.totalEB + (b.pendingEB + effectiveBalance.toNat) + 0 = _ + effectiveBalance.toNat
    omega
  · show b.pendingSmooths + effectiveBalance.toNat * (REBALANCE_PERIOD - (timestamp - b.lastRebalance)) +
        REBALANCE_PERIOD * b.pendingEB + effectiveBalance.toNat * (timestamp - b.lastRebalance) =
      b.pendingSmooths + REBALANCE_PERIOD * (b.pendingEB + effectiveBalance.toNat) + 0
    obtain ⟨rest, split⟩ := Nat.exists_eq_add_of_le inside
    rw [split, Nat.add_sub_cancel_left]
    ring
  · have fresh : ((b.validators key).enrol effectiveBalance withdrawal timestamp).claimable
        b.lastRebalance = 0 := by
      rw [vacant]
      exact if_pos current
    rw [fresh]
    rfl

/-- A claim pays the whole share out when the record is not pending. -/
theorem Shares.claim {b : Books} {key : Word} (shares : b.Shares) (opened : 0 < b.lastRebalance)
    (registered : (b.validators key).Registered)
    (enough : (b.validators key).claimable b.lastRebalance ≤ b.smooths)
    (settled : (b.validators key).start ≤ b.lastRebalance ∨ (b.validators key).effectiveBalance = 0) :
    ((b.consume ((b.validators key).claimable b.lastRebalance)).restart key).Shares := by
  have alive : ((b.validators key).restart b.lastRebalance).Registered := opened.ne'
  have before : (b.validators key).missed b.lastRebalance = 0 := by
    rcases settled with early | idle
    · exact Validator.missed_settled early
    · rw [Validator.missed, Validator.balance, idle]
      simp
  have after : ((b.validators key).restart b.lastRebalance).missed b.lastRebalance = 0 :=
    Validator.missed_settled le_rfl
  refine shares.write key ((b.validators key).restart b.lastRebalance) rfl rfl ?_ ?_ ?_ <;>
    rw [if_pos registered, if_pos alive]
  · rfl
  · rw [before, after]
    rfl
  · rw [Validator.claimable_restart]
    exact Nat.sub_add_cancel enough

/-- An active update keeps the shares when it comes at the moment of a rebalance. -/
theorem Shares.bank {timestamp : ℕ} {b : Books} {key : Word} {effectiveBalance : Uint64}
    (shares : b.Shares) (current : b.lastRebalance ≤ timestamp)
    (inside : timestamp - b.lastRebalance ≤ REBALANCE_PERIOD)
    (registered : (b.validators key).Registered) (early : (b.validators key).start < b.lastRebalance)
    (covered : (b.validators key).effectiveBalance.toNat ≤ b.totalEB)
    (level : timestamp = b.lastRebalance ∨ (b.validators key).effectiveBalance = 0) :
    (b.bank key effectiveBalance timestamp).Shares := by
  have alive : ((b.validators key).bank effectiveBalance timestamp).Registered := by
    show timestamp ≠ 0
    omega
  have before : (b.validators key).missed b.lastRebalance = 0 := Validator.missed_settled early.le
  refine shares.write key ((b.validators key).bank effectiveBalance timestamp) rfl rfl ?_ ?_ ?_ <;>
    rw [if_pos registered, if_pos alive]
  · show b.totalEB - (b.validators key).balance + (b.pendingEB + effectiveBalance.toNat) +
        (b.validators key).balance = b.totalEB + b.pendingEB + effectiveBalance.toNat
    have covered : (b.validators key).balance ≤ b.totalEB := covered
    omega
  · rw [before]
    show b.pendingSmooths + effectiveBalance.toNat * (REBALANCE_PERIOD - (timestamp - b.lastRebalance)) +
        REBALANCE_PERIOD * b.pendingEB + effectiveBalance.toNat * (timestamp - b.lastRebalance) =
      b.pendingSmooths + REBALANCE_PERIOD * (b.pendingEB + effectiveBalance.toNat) + 0
    obtain ⟨rest, split⟩ := Nat.exists_eq_add_of_le inside
    rw [split, Nat.add_sub_cancel_left]
    ring
  · rw [Validator.claimable_bank _ current level]
    rfl

/-- A leaving validator takes its share out of `smooths`. -/
theorem Shares.leave {b : Books} {key : Word} (shares : b.Shares)
    (registered : (b.validators key).Registered) (releasable : b.Releasable (b.validators key)) :
    ((b.release (b.validators key)).remove key).Shares := by
  have dead : ¬ Validator.unset.Registered := fun alive => alive rfl
  have records : ((b.release (b.validators key)).remove key).validators =
      Function.update b.validators key .unset :=
    congrArg (fun records : Word → Validator => Function.update records key Validator.unset)
      (release_validators _ b)
  have claimed := releasable.shares
  refine shares.write key .unset (release_lastRebalance _ b) records ?_ ?_ ?_ <;>
    rw [if_pos registered, if_neg dead] <;>
    by_cases late : b.lastRebalance ≤ (b.validators key).start
  · rw [release_pending late]
    obtain ⟨balance, _, _⟩ := releasable.pending late
    show b.totalEB + (b.pendingEB - (b.validators key).effectiveBalance.toNat) +
      (b.validators key).effectiveBalance.toNat = b.totalEB + b.pendingEB + 0
    omega
  · rw [release_settled late]
    have balance := releasable.settled late
    show b.totalEB - (b.validators key).effectiveBalance.toNat + b.pendingEB +
      (b.validators key).effectiveBalance.toNat = b.totalEB + b.pendingEB + 0
    omega
  · rw [release_pending late]
    obtain ⟨balance, inside, allocated⟩ := releasable.pending late
    show b.pendingSmooths - (b.validators key).effectiveBalance.toNat *
          (REBALANCE_PERIOD - ((b.validators key).start - b.lastRebalance)) +
        REBALANCE_PERIOD * b.pendingEB + 0 =
      b.pendingSmooths + REBALANCE_PERIOD * (b.pendingEB - (b.validators key).effectiveBalance.toNat) +
        (b.validators key).effectiveBalance.toNat * ((b.validators key).start - b.lastRebalance)
    obtain ⟨others, split⟩ := Nat.exists_eq_add_of_le balance
    obtain ⟨rest, cut⟩ := Nat.exists_eq_add_of_le inside
    rw [cut, Nat.add_sub_cancel_left] at allocated ⊢
    rw [split, Nat.add_sub_cancel_left]
    obtain ⟨spare, left⟩ := Nat.exists_eq_add_of_le allocated
    rw [left, Nat.add_sub_cancel_left]
    ring
  · rw [release_settled late, Validator.missed_settled (Nat.le_of_not_le late)]
    rfl
  · rw [release_pending late]
    exact Nat.sub_add_cancel claimed
  · rw [release_settled late]
    exact Nat.sub_add_cancel claimed

/-- A step keeps the shares when a claim finds no pending record and a bank comes at a rebalance. -/
theorem Shares.step {timestamp now : ℕ} {b next : Books} {operation : Operation}
    (shares : b.Shares) (tidy : b.Tidy now) (forward : now ≤ timestamp)
    (step : Step timestamp b operation next)
    (settled : ∀ key, operation = .claim key →
      ((b.checkpoint timestamp).validators key).start ≤ (b.checkpoint timestamp).lastRebalance ∨
      ((b.checkpoint timestamp).validators key).effectiveBalance = 0)
    (level : ∀ key effectiveBalance, operation = .bank key effectiveBalance →
      timestamp = (b.checkpoint timestamp).lastRebalance ∨
      ((b.checkpoint timestamp).validators key).effectiveBalance = 0) : next.Shares := by
  have late := tidy.later forward
  have opened := late.checkpoint.opened
  have current := late.checkpoint.current
  cases step with
  | hold => exact shares
  | act opens action =>
      have kept := shares.checkpoint late
      cases action with
      | settle => exact kept
      | enrol vacant narrow genesis inside =>
          have positive : 0 < timestamp := lt_of_lt_of_le (by decide) genesis
          exact kept.enrol current positive inside (late.checkpoint.vacant _ vacant)
      | claim registered enough =>
          exact kept.claim (opened _ registered) registered enough (settled _ rfl)
      | bank registered early covered inside =>
          exact kept.bank current inside registered early covered (level _ _ rfl)
      | leave present releasable =>
          exact kept.leave (late.checkpoint.registered present) releasable

end Books

section Quiet

variable {B : Type} {G : ReentrancyGuard}

/-- The withdrawal finds a record that is not pending. -/
def WithdrawsSettled (move : Move (World B G) (Input B)) : Prop :=
  WithdrawsWhen (fun lastRebalance validator =>
    validator.start ≤ lastRebalance ∨ validator.effectiveBalance = 0) move

/-- The active update comes at the moment of a rebalance. -/
def UpdatesAtRebalance (move : Move (World B G) (Input B)) : Prop :=
  UpdatesWhen (fun timestamp lastRebalance validator =>
    timestamp = lastRebalance ∨ validator.effectiveBalance = 0) move

variable [Bytes32 B]

theorem Deployed.shares {world : World B G} (deployed : Deployed world) : world.pool.books.Shares := by
  obtain ⟨self, balance, created⟩ := deployed
  rw [created]
  have dead (key : Word) : ¬ ((Pool.constructor (B := B) (G := G) self balance world.now).books.validators
      key).Registered := fun alive => alive rfl
  constructor <;> rw [Ledger.total_eq_zero _ _ dead] <;> rfl

variable [DecidableEq B]

/-- The bulk amounts add up to the lazy shares along every quiet run that meets both conditions. -/
theorem quiet_shares {trace : List (Move (World B G) (Input B))} {world : World B G}
    (run : Run Deployed (fun move => Succeeds move ∧ Quiet move ∧
      (WithdrawsSettled move ∧ UpdatesAtRebalance move)) trace world) : world.pool.books.Shares := by
  refine (quiet_invariant (fun _ b => b.Shares) (fun _ deployed => deployed.shares) ?_ run).2
  intro move operation succeeds met performs tidy shares step
  obtain ⟨settled, level⟩ := met
  refine shares.step tidy succeeds.1 step ((withdrawsWhen_iff performs step.opens).mp settled) ?_
  intro key effectiveBalance same
  subst same
  exact level.bank performs (step.opens (by simp))

/-- The shares of the registered validators add up to `smooths`, and each of them is covered. -/
theorem smooths_eq_sum_claimable {trace : List (Move (World B G) (Input B))} {world : World B G}
    (run : Run Deployed (fun move => Succeeds move ∧ Quiet move ∧
      (WithdrawsSettled move ∧ UpdatesAtRebalance move)) trace world) :
    world.pool.smooths =
      ∑ i ∈ world.pool.registered, (world.pool.validators i).claimable world.pool.lastRebalance ∧
    ∀ i ∈ world.pool.registered,
      (world.pool.validators i).claimable world.pool.lastRebalance ≤ world.pool.smooths := by
  have whole := (quiet_shares run).smooths
  refine ⟨whole, ?_⟩
  intro i member
  exact (Ledger.le_total (Validator.claimable world.pool.lastRebalance)
    (Ledger.mem_keys.mp member)).trans_eq whole.symm

end Quiet

/-- The shares add up after an update at the rebalance and a withdrawal in place. -/
theorem inPlace_shares : Sample.inPlace.pool.smooths =
    ∑ i ∈ Sample.inPlace.pool.registered,
      (Sample.inPlace.pool.validators i).claimable Sample.inPlace.pool.lastRebalance := by
  have run : Run Deployed (fun move => Succeeds move ∧ Quiet move ∧
      (WithdrawsSettled move ∧ UpdatesAtRebalance move)) Sample.inPlaceTrace Sample.inPlace := by
    apply Sample.inPlace_run.weaken
    rintro move ⟨⟨succeeds, quiet⟩, withdraws, updates⟩
    exact ⟨succeeds, quiet, withdraws.imp fun _ _ same => .inl same.le, updates.imp fun _ _ _ same => .inl same⟩
  exact (smooths_eq_sum_claimable run).1

/-- An update in the middle of a period banks a share that `smooths` does not hold yet. -/
theorem refreshed_overdrawn :
    Run Deployed (fun move => Succeeds move ∧ Quiet move)
      [Sample.settled.move Sample.refresh, Sample.joined.move Sample.settle,
        SampleWorld.deployed.move Sample.join] Sample.refreshed ∧
    Sample.refreshed.pool.smooths ≠
      ∑ i ∈ Sample.refreshed.pool.registered,
        (Sample.refreshed.pool.validators i).claimable Sample.refreshed.pool.lastRebalance := by
  refine ⟨Sample.refreshed_run, ?_⟩
  intro same
  have member : (5 : Word) ∈ Sample.refreshed.pool.registered := Ledger.mem_keys.mpr (by decide +kernel)
  have part := Finset.single_le_sum
    (f := fun i => (Sample.refreshed.pool.validators i).claimable Sample.refreshed.pool.lastRebalance)
    (fun i _ => Nat.zero_le _) member
  rw [← same] at part
  exact absurd part (by decide +kernel)

end SmoothlyPool
