import SmoothlyPool.Proof.Pool.Refine
import SmoothlyPool.Proof.Scenario

namespace SmoothlyPool

open Pool Transition

namespace Pool

variable {B : Type} {G : ReentrancyGuard}

/-- The branch of `_exit` selects the bucket that holds the balance of a validator. -/
structure Buckets (s : Pool B G) : Prop where
  settled : s.totalEB =
    ∑ i ∈ s.registered.filter fun i => (s.validators i).start < s.lastRebalance,
      (s.validators i).effectiveBalance.toNat
  pending : s.pendingEB =
    ∑ i ∈ s.registered.filter fun i => s.lastRebalance ≤ (s.validators i).start,
      (s.validators i).effectiveBalance.toNat
  allocated : s.pendingSmooths =
    ∑ i ∈ s.registered.filter fun i => s.lastRebalance ≤ (s.validators i).start,
      (s.validators i).effectiveBalance.toNat *
        (REBALANCE_PERIOD - ((s.validators i).start - s.lastRebalance))

end Pool

namespace Validator

/-- This is the part of the balance that belongs to `totalEB`. -/
def settledBalance (lastRebalance : ℕ) (validator : Validator) : ℕ :=
  if validator.start < lastRebalance then validator.effectiveBalance.toNat else 0

/-- This is the part of the balance that belongs to `pendingEB`. -/
def pendingBalance (lastRebalance : ℕ) (validator : Validator) : ℕ :=
  if lastRebalance ≤ validator.start then validator.effectiveBalance.toNat else 0

/-- This is the part of `pendingSmooths` that belongs to the validator. -/
def allocation (lastRebalance : ℕ) (validator : Validator) : ℕ :=
  if lastRebalance ≤ validator.start then
    validator.effectiveBalance.toNat * (REBALANCE_PERIOD - (validator.start - lastRebalance))
  else 0

variable {lastRebalance : ℕ}

theorem buckets_settled (validator : Validator) (settled : validator.start < lastRebalance) :
    validator.settledBalance lastRebalance = validator.effectiveBalance.toNat ∧
    validator.pendingBalance lastRebalance = 0 ∧ validator.allocation lastRebalance = 0 := by
  have late := Nat.not_le_of_lt settled
  exact ⟨if_pos settled, if_neg late, if_neg late⟩

theorem buckets_pending (validator : Validator) (pending : lastRebalance ≤ validator.start) :
    validator.settledBalance lastRebalance = 0 ∧
    validator.pendingBalance lastRebalance = validator.effectiveBalance.toNat ∧
    validator.allocation lastRebalance =
      validator.effectiveBalance.toNat * (REBALANCE_PERIOD - (validator.start - lastRebalance)) :=
  ⟨if_neg (Nat.not_lt_of_le pending), if_pos pending, if_pos pending⟩

/-- The two parts make up the balance. -/
theorem settled_add_pending (lastRebalance : ℕ) (validator : Validator) :
    validator.settledBalance lastRebalance + validator.pendingBalance lastRebalance =
      validator.effectiveBalance.toNat := by
  rcases Nat.lt_or_ge validator.start lastRebalance with settled | pending
  · obtain ⟨whole, none, _⟩ := buckets_settled validator settled
    omega
  · obtain ⟨none, whole, _⟩ := buckets_pending validator pending
    omega

/-- A validator without balance belongs to no bucket. -/
theorem buckets_idle (lastRebalance : ℕ) (validator : Validator) (idle : validator.effectiveBalance = 0) :
    validator.settledBalance lastRebalance = 0 ∧ validator.pendingBalance lastRebalance = 0 ∧
    validator.allocation lastRebalance = 0 := by
  have zero : validator.effectiveBalance.toNat = 0 := by rw [idle]; rfl
  simp [settledBalance, pendingBalance, allocation, zero]

/-- A restart at the start or of an idle validator moves nothing between the buckets. -/
theorem buckets_restart (validator : Validator)
    (still : validator.start = lastRebalance ∨ validator.effectiveBalance = 0) :
    (validator.restart lastRebalance).settledBalance lastRebalance =
      validator.settledBalance lastRebalance ∧
    (validator.restart lastRebalance).pendingBalance lastRebalance =
      validator.pendingBalance lastRebalance ∧
    (validator.restart lastRebalance).allocation lastRebalance = validator.allocation lastRebalance := by
  rcases still with same | idle
  · have restarted : validator.restart lastRebalance = { validator with smooths := 0 } := by
      rw [Validator.restart, ← same]
    rw [restarted]
    exact ⟨rfl, rfl, rfl⟩
  · have before := buckets_idle lastRebalance validator idle
    have after := buckets_idle lastRebalance (validator.restart lastRebalance) idle
    omega

end Validator

namespace Books

/-- This is the abstract form of the buckets. -/
structure Buckets (b : Books) : Prop where
  settled : b.totalEB =
    Ledger.total Validator.Registered (Validator.settledBalance b.lastRebalance) b.validators
  pending : b.pendingEB =
    Ledger.total Validator.Registered (Validator.pendingBalance b.lastRebalance) b.validators
  allocated : b.pendingSmooths =
    Ledger.total Validator.Registered (Validator.allocation b.lastRebalance) b.validators

/-- The settled and the pending balance make up the whole balance. -/
theorem Buckets.whole {b : Books} (buckets : b.Buckets) :
    b.totalEB + b.pendingEB =
      Ledger.total Validator.Registered (fun v => v.effectiveBalance.toNat) b.validators := by
  rw [buckets.settled, buckets.pending, ← Ledger.total_add]
  exact Ledger.total_congr fun key _ => Validator.settled_add_pending _ _

/-- A write exchanges the parts of one record. -/
theorem Buckets.write {b next : Books} (buckets : b.Buckets) (key : Word) (record : Validator)
    (rebalanced : next.lastRebalance = b.lastRebalance)
    (records : next.validators = Function.update b.validators key record)
    (settled : next.totalEB +
        (if (b.validators key).Registered then (b.validators key).settledBalance b.lastRebalance else 0) =
      b.totalEB + if record.Registered then record.settledBalance b.lastRebalance else 0)
    (pending : next.pendingEB +
        (if (b.validators key).Registered then (b.validators key).pendingBalance b.lastRebalance else 0) =
      b.pendingEB + if record.Registered then record.pendingBalance b.lastRebalance else 0)
    (allocated : next.pendingSmooths +
        (if (b.validators key).Registered then (b.validators key).allocation b.lastRebalance else 0) =
      b.pendingSmooths + if record.Registered then record.allocation b.lastRebalance else 0) :
    next.Buckets := by
  obtain ⟨settledBefore, pendingBefore, allocatedBefore⟩ := buckets
  have settledExchange := Ledger.total_update Validator.Registered
    (Validator.settledBalance b.lastRebalance) b.validators key record
  have pendingExchange := Ledger.total_update Validator.Registered
    (Validator.pendingBalance b.lastRebalance) b.validators key record
  have allocatedExchange := Ledger.total_update Validator.Registered
    (Validator.allocation b.lastRebalance) b.validators key record
  constructor <;> rw [rebalanced, records] <;> omega

/-- A due rebalance settles every record. -/
theorem Buckets.checkpoint {timestamp : ℕ} {b : Books} (buckets : b.Buckets) (tidy : b.Tidy timestamp) :
    (b.checkpoint timestamp).Buckets := by
  by_cases due : REBALANCE_PERIOD < timestamp - b.lastRebalance
  · have settled (key : Word) : (b.validators key).start < timestamp := by
      have inside := tidy.inside key
      omega
    have parts (key : Word) := Validator.buckets_settled (b.validators key) (settled key)
    rw [checkpoint_due due]
    refine ⟨?_, ?_, ?_⟩
    · exact buckets.whole.trans (Ledger.total_congr fun key _ => (parts key).1.symm)
    · symm
      apply Finset.sum_eq_zero
      intro key _
      exact (parts key).2.1
    · symm
      apply Finset.sum_eq_zero
      intro key _
      exact (parts key).2.2
  · rw [checkpoint_early due]
    exact buckets

/-- A new member is pending. -/
theorem Buckets.enrol {timestamp : ℕ} {b : Books} {key : Word} {effectiveBalance : Uint64}
    {withdrawal : Address} (buckets : b.Buckets) (current : b.lastRebalance ≤ timestamp)
    (opened : 0 < timestamp) (vacant : ¬ (b.validators key).Registered) :
    (b.enrol key effectiveBalance withdrawal timestamp).Buckets := by
  have alive : ((b.validators key).enrol effectiveBalance withdrawal timestamp).Registered := opened.ne'
  obtain ⟨none, balance, allocation⟩ := Validator.buckets_pending
    ((b.validators key).enrol effectiveBalance withdrawal timestamp) current
  refine buckets.write key ((b.validators key).enrol effectiveBalance withdrawal timestamp) rfl rfl
    ?_ ?_ ?_ <;> rw [if_neg vacant, if_pos alive]
  · rw [none]
    rfl
  · rw [balance]
    rfl
  · rw [allocation]
    rfl

/-- A claim keeps the buckets when its restart moves nothing between them. -/
theorem Buckets.claim {b : Books} {key : Word} (share : ℕ) (buckets : b.Buckets)
    (opened : 0 < b.lastRebalance) (registered : (b.validators key).Registered)
    (still : (b.validators key).start = b.lastRebalance ∨ (b.validators key).effectiveBalance = 0) :
    ((b.consume share).restart key).Buckets := by
  have alive : ((b.validators key).restart b.lastRebalance).Registered := opened.ne'
  obtain ⟨settled, pending, allocated⟩ := Validator.buckets_restart (b.validators key) still
  refine buckets.write key ((b.validators key).restart b.lastRebalance) rfl rfl ?_ ?_ ?_ <;>
    rw [if_pos registered, if_pos alive]
  · rw [settled]
    rfl
  · rw [pending]
    rfl
  · rw [allocated]
    rfl

/-- An active update moves the validator from the settled to the pending bucket. -/
theorem Buckets.bank {timestamp : ℕ} {b : Books} {key : Word} {effectiveBalance : Uint64}
    (buckets : b.Buckets) (current : b.lastRebalance ≤ timestamp)
    (registered : (b.validators key).Registered) (early : (b.validators key).start < b.lastRebalance)
    (covered : (b.validators key).effectiveBalance.toNat ≤ b.totalEB) :
    (b.bank key effectiveBalance timestamp).Buckets := by
  have alive : ((b.validators key).bank effectiveBalance timestamp).Registered := by
    show timestamp ≠ 0
    omega
  obtain ⟨whole, old, nothing⟩ := Validator.buckets_settled (b.validators key) early
  obtain ⟨none, balance, allocation⟩ := Validator.buckets_pending
    ((b.validators key).bank effectiveBalance timestamp) current
  refine buckets.write key ((b.validators key).bank effectiveBalance timestamp) rfl rfl ?_ ?_ ?_ <;>
    rw [if_pos registered, if_pos alive]
  · rw [whole, none]
    exact Nat.sub_add_cancel covered
  · rw [old, balance]
    rfl
  · rw [nothing, allocation]
    rfl

/-- A leaving validator takes its part out of its bucket. -/
theorem Buckets.leave {b : Books} {key : Word} (buckets : b.Buckets)
    (registered : (b.validators key).Registered) (releasable : b.Releasable (b.validators key)) :
    ((b.release (b.validators key)).remove key).Buckets := by
  have dead : ¬ Validator.unset.Registered := fun alive => alive rfl
  have records : ((b.release (b.validators key)).remove key).validators =
      Function.update b.validators key .unset := 
    congrArg (fun records : Word → Validator => Function.update records key Validator.unset)
      (release_validators _ b)
  refine buckets.write key .unset (release_lastRebalance _ b) records ?_ ?_ ?_ <;>
    rw [if_pos registered, if_neg dead, Nat.add_zero] <;>
    by_cases late : b.lastRebalance ≤ (b.validators key).start
  · rw [release_pending late, (Validator.buckets_pending _ late).1]
    rfl
  · rw [release_settled late, (Validator.buckets_settled _ (Nat.lt_of_not_le late)).1]
    exact Nat.sub_add_cancel (releasable.settled late)
  · rw [release_pending late, (Validator.buckets_pending _ late).2.1]
    exact Nat.sub_add_cancel (releasable.pending late).1
  · rw [release_settled late, (Validator.buckets_settled _ (Nat.lt_of_not_le late)).2.1]
    rfl
  · rw [release_pending late, (Validator.buckets_pending _ late).2.2]
    exact Nat.sub_add_cancel (releasable.pending late).2.2
  · rw [release_settled late, (Validator.buckets_settled _ (Nat.lt_of_not_le late)).2.2]
    rfl

/-- A claim that restarts an earlier or a later start breaks the buckets. -/
theorem Buckets.still_of_claim {b : Books} {key : Word} {share : ℕ} (buckets : b.Buckets)
    (opened : 0 < b.lastRebalance) (registered : (b.validators key).Registered)
    (after : ((b.consume share).restart key).Buckets) :
    (b.validators key).start = b.lastRebalance ∨ (b.validators key).effectiveBalance = 0 := by
  have alive : ((b.validators key).restart b.lastRebalance).Registered := opened.ne'
  obtain ⟨none, _, whole⟩ :=
    Validator.buckets_pending ((b.validators key).restart b.lastRebalance) (le_refl b.lastRebalance)
  by_contra moved
  rw [not_or] at moved
  obtain ⟨elsewhere, busy⟩ := moved
  have positive : 0 < (b.validators key).effectiveBalance.toNat := by
    rw [Nat.pos_iff_ne_zero]
    intro zero
    exact busy (BitVec.eq_of_toNat_eq zero)
  rcases Nat.lt_or_ge (b.validators key).start b.lastRebalance with early | late
  · have exchange := Ledger.total_rewrite (Validator.settledBalance b.lastRebalance) _ _ _ registered alive
    have unchanged := buckets.settled.symm.trans after.settled
    obtain ⟨balance, _, _⟩ := Validator.buckets_settled _ early
    have same : Ledger.total Validator.Registered (Validator.settledBalance b.lastRebalance) b.validators =
        Ledger.total Validator.Registered (Validator.settledBalance b.lastRebalance)
          (Function.update b.validators key ((b.validators key).restart b.lastRebalance)) := unchanged
    omega
  · have exchange := Ledger.total_rewrite (Validator.allocation b.lastRebalance) _ _ _ registered alive
    have unchanged := buckets.allocated.symm.trans after.allocated
    obtain ⟨_, _, allocated⟩ := Validator.buckets_pending _ late
    have same : Ledger.total Validator.Registered (Validator.allocation b.lastRebalance) b.validators =
        Ledger.total Validator.Registered (Validator.allocation b.lastRebalance)
          (Function.update b.validators key ((b.validators key).restart b.lastRebalance)) := unchanged
    have less : (b.validators key).effectiveBalance.toNat *
          (REBALANCE_PERIOD - ((b.validators key).start - b.lastRebalance)) <
        (b.validators key).effectiveBalance.toNat * (REBALANCE_PERIOD - (b.lastRebalance - b.lastRebalance)) := by
      apply Nat.mul_lt_mul_of_pos_left _ positive
      have period : 0 < REBALANCE_PERIOD := by decide
      omega
    have restarted : ((b.validators key).restart b.lastRebalance).allocation b.lastRebalance =
        (b.validators key).effectiveBalance.toNat * (REBALANCE_PERIOD - (b.lastRebalance - b.lastRebalance)) :=
      whole
    omega

/-- A step keeps the buckets exactly when a claim moves nothing between them. -/
theorem Buckets.step_iff {timestamp now : ℕ} {b next : Books} {operation : Operation}
    (buckets : b.Buckets) (tidy : b.Tidy now) (forward : now ≤ timestamp)
    (step : Step timestamp b operation next) :
    next.Buckets ↔ ∀ key, operation = .claim key →
      ((b.checkpoint timestamp).validators key).start = (b.checkpoint timestamp).lastRebalance ∨
      ((b.checkpoint timestamp).validators key).effectiveBalance = 0 := by
  have late := tidy.later forward
  have opened := late.checkpoint.opened
  have current := late.checkpoint.current
  cases step with
  | hold => exact iff_of_true buckets fun _ other => nomatch other
  | act opens action =>
      have settled := buckets.checkpoint late
      cases action with
      | settle => exact iff_of_true settled fun _ other => nomatch other
      | enrol vacant narrow genesis inside =>
          have positive : 0 < timestamp := lt_of_lt_of_le (by decide) genesis
          exact iff_of_true (settled.enrol current positive vacant) fun _ other => nomatch other
      | bank registered early covered inside =>
          exact iff_of_true (settled.bank current registered early covered) fun _ other => nomatch other
      | leave present releasable =>
          exact iff_of_true (settled.leave (late.checkpoint.registered present) releasable)
            fun _ other => nomatch other
      | claim registered enough =>
          constructor
          · intro after key same
            obtain rfl := Operation.claim.inj same
            exact settled.still_of_claim (opened _ registered) registered after
          · intro still
            exact settled.claim _ (opened _ registered) registered (still _ rfl)

end Books

section Quiet

variable {B : Type} {G : ReentrancyGuard}

theorem Pool.buckets_iff (s : Pool B G) : s.Buckets ↔ s.books.Buckets := by
  constructor <;> rintro ⟨settled, pending, allocated⟩ <;> constructor
  · exact settled.trans (Finset.sum_filter _ _)
  · exact pending.trans (Finset.sum_filter _ _)
  · exact allocated.trans (Finset.sum_filter _ _)
  · exact settled.trans (Finset.sum_filter _ _).symm
  · exact pending.trans (Finset.sum_filter _ _).symm
  · exact allocated.trans (Finset.sum_filter _ _).symm

variable [Bytes32 B]

theorem Deployed.buckets {world : World B G} (deployed : Deployed world) : world.pool.books.Buckets := by
  obtain ⟨self, balance, created⟩ := deployed
  rw [created]
  have dead (key : Word) : ¬ ((Pool.constructor (B := B) (G := G) self balance world.now).books.validators
      key).Registered := fun alive => alive rfl
  constructor <;> rw [Ledger.total_eq_zero _ _ dead] <;> rfl

variable [DecidableEq B]

/-- A withdrawal moves the balance of its validator out of place unless it restarts the record at
its own start. -/
def WithdrawsInPlace (move : Move (World B G) (Input B)) : Prop :=
  WithdrawsWhen (fun lastRebalance validator =>
    validator.start = lastRebalance ∨ validator.effectiveBalance = 0) move

/-- The buckets hold in every state of a quiet run exactly when its withdrawals are in place. -/
theorem buckets_iff_withdrawsInPlace {trace : List (Move (World B G) (Input B))} {world : World B G}
    (run : Run Deployed (fun move => Succeeds move ∧ Quiet move) trace world) :
    (world.pool.Buckets ∧ ∀ move ∈ trace, move.before.pool.Buckets) ↔
      ∀ move ∈ trace, WithdrawsInPlace move := by
  induction run with
  | start deployed => simp [(Pool.buckets_iff _).mpr deployed.buckets]
  | @next trace move run moves ih =>
      obtain ⟨succeeds, quiet⟩ := moves
      obtain ⟨operation, performs, step⟩ := succeeds.step quiet
      have tidy := (quiet_tidy run).later succeeds.1
      have kept (buckets : move.before.pool.Buckets) : move.after.pool.Buckets ↔ WithdrawsInPlace move := by
        rw [Pool.buckets_iff] at buckets ⊢
        rw [buckets.step_iff tidy le_rfl step, WithdrawsInPlace, withdrawsWhen_iff performs step.opens]
      constructor
      · rintro ⟨after, before⟩ each member
        have earlier := fun other old => before other (List.mem_cons_of_mem move old)
        have first := before move List.mem_cons_self
        rcases List.mem_cons.mp member with rfl | old
        · exact (kept first).mp after
        · exact ih.mp ⟨first, earlier⟩ each old
      · intro met
        obtain ⟨first, earlier⟩ := ih.mpr fun other old => met other (List.mem_cons_of_mem move old)
        refine ⟨(kept first).mpr (met move List.mem_cons_self), ?_⟩
        intro each member
        rcases List.mem_cons.mp member with rfl | old
        · exact first
        · exact earlier each old

end Quiet

/-- The buckets hold after an update at the rebalance and a withdrawal in place. -/
theorem inPlace_buckets : Sample.inPlace.pool.Buckets := by
  have run : Run Deployed (fun move => Succeeds move ∧ Quiet move) Sample.inPlaceTrace Sample.inPlace :=
    Sample.inPlace_run.weaken fun _ keeps => keeps.1
  refine ((buckets_iff_withdrawsInPlace run).mpr ?_).1
  intro move member
  have keeps := Sample.inPlace_run.steps member
  exact keeps.2.1.imp fun _ _ same => .inl same

/-- The withdrawal restarts a settled record at the last rebalance, and the balance stays in `totalEB`. -/
theorem claimed_misplaced :
    Run Deployed (fun move => Succeeds move ∧ Quiet move)
      [Sample.joined.move Sample.claim, SampleWorld.deployed.move Sample.join] Sample.claimed ∧
    ¬ Sample.claimed.pool.Buckets := by
  refine ⟨Sample.claimed_run, ?_⟩
  intro buckets
  have member : (5 : Word) ∈ Sample.claimed.pool.registered.filter fun i =>
      Sample.claimed.pool.lastRebalance ≤ (Sample.claimed.pool.validators i).start := by
    rw [Finset.mem_filter, Pool.registered, Ledger.mem_keys]
    decide +kernel
  have part := Finset.single_le_sum (f := fun i => (Sample.claimed.pool.validators i).effectiveBalance.toNat)
    (fun i _ => Nat.zero_le _) member
  rw [← buckets.pending] at part
  exact absurd part (by decide +kernel)

end SmoothlyPool
