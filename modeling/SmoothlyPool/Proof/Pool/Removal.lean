import SmoothlyPool.Proof.Pool.Buckets
import SmoothlyPool.Proof.Pool.Shares
import SmoothlyPool.Proof.Pool.Solvency

namespace SmoothlyPool

open Checked Pool Transition

namespace Books

/-- These invariants together make every removal possible. -/
structure Ready (now : ℕ) (b : Books) : Prop where
  tidy : b.Tidy now
  buckets : b.Buckets
  shares : b.Shares
  banked : ∀ key, (b.validators key).smooths ≤ 2 ^ 64 * (b.validators key).start

/-- Banked shares stay below the time that has passed. -/
theorem Touch.banked {timestamp lastRebalance : ℕ} {key : Word} {before after : Validator}
    {operation : Operation} (touch : Touch timestamp lastRebalance key before operation after)
    (past : before.start ≤ timestamp) (banked : before.smooths ≤ 2 ^ 64 * before.start) :
    after.smooths ≤ 2 ^ 64 * after.start := by
  cases touch with
  | rest other => exact banked
  | enrol vacant positive =>
      rw [vacant]
      exact Nat.zero_le _
  | claim registered positive => exact Nat.zero_le _
  | bank registered =>
      show before.smooths + (timestamp - before.start) * before.effectiveBalance.toNat ≤ 2 ^ 64 * timestamp
      have small := before.effectiveBalance.isLt
      calc before.smooths + (timestamp - before.start) * before.effectiveBalance.toNat
        _ ≤ 2 ^ 64 * before.start + (timestamp - before.start) * 2 ^ 64 :=
            Nat.add_le_add banked (Nat.mul_le_mul_left _ small.le)
        _ = 2 ^ 64 * (before.start + (timestamp - before.start)) := by ring
        _ = 2 ^ 64 * timestamp := by rw [Nat.add_sub_cancel' past]
  | leave => exact Nat.zero_le _

/-- A share fits in 128 bits. -/
theorem claimable_le {validator : Validator} {lastRebalance : ℕ} (rebalanced : lastRebalance < 2 ^ 64)
    (started : validator.start < 2 ^ 64) (banked : validator.smooths ≤ 2 ^ 64 * validator.start) :
    validator.claimable lastRebalance ≤ 2 ^ 128 := by
  have small := validator.effectiveBalance.isLt
  rw [Validator.claimable_eq]
  calc (lastRebalance - validator.start) * validator.effectiveBalance.toNat + validator.smooths
    _ ≤ (lastRebalance - validator.start) * 2 ^ 64 + 2 ^ 64 * validator.start :=
        Nat.add_le_add (Nat.mul_le_mul_left _ small.le) banked
    _ = 2 ^ 64 * (lastRebalance - validator.start + validator.start) := by ring
    _ ≤ 2 ^ 64 * 2 ^ 64 := Nat.mul_le_mul_left _ (by omega)
    _ = 2 ^ 128 := by norm_num

/-- The indices of the members fit in 64 bits, so there are at most `2 ^ 64` of them. -/
theorem Tidy.card_le {now : ℕ} {b : Books} (tidy : b.Tidy now) :
    (Ledger.keys Validator.Registered b.validators).card ≤ 2 ^ 64 := by
  rw [← Finset.card_range (2 ^ 64)]
  apply Finset.card_le_card_of_injOn BitVec.toNat
  · intro key member
    exact Finset.mem_coe.mpr (Finset.mem_range.mpr (tidy.narrow key (Ledger.mem_keys.mp member)))
  · exact fun _ _ _ _ same => BitVec.eq_of_toNat_eq same

/-- A sum over the members fits in 192 bits when every amount fits in 128 bits. -/
theorem Tidy.total_le {now : ℕ} {b : Books} (tidy : b.Tidy now) (amount : Validator → ℕ)
    (each : ∀ key, amount (b.validators key) ≤ 2 ^ 128) :
    Ledger.total Validator.Registered amount b.validators ≤ 2 ^ 192 :=
  calc Ledger.total Validator.Registered amount b.validators
    _ ≤ (Ledger.keys Validator.Registered b.validators).card * 2 ^ 128 :=
        Ledger.total_le amount _ _ fun key _ => each key
    _ ≤ 2 ^ 64 * 2 ^ 128 := Nat.mul_le_mul_right _ tidy.card_le
    _ = 2 ^ 192 := by norm_num

theorem Ready.checkpoint {timestamp now : ℕ} {b : Books} (ready : b.Ready now) (forward : now ≤ timestamp) :
    (b.checkpoint timestamp).Ready timestamp := by
  have late := ready.tidy.later forward
  refine ⟨late.checkpoint, ready.buckets.checkpoint late, ready.shares.checkpoint late, ?_⟩
  rw [checkpoint_validators]
  exact ready.banked

/-- The aggregates of ready books fit in 192 bits. -/
theorem Ready.small {now : ℕ} {b : Books} (ready : b.Ready now) (clock : now < 2 ^ 64) :
    b.smooths ≤ 2 ^ 192 ∧ b.totalEB ≤ 2 ^ 192 := by
  constructor
  · rw [ready.shares.smooths]
    apply ready.tidy.total_le
    intro key
    exact claimable_le (ready.tidy.current.trans_lt clock) ((ready.tidy.past key).trans_lt clock)
      (ready.banked key)
  · rw [ready.buckets.settled]
    apply ready.tidy.total_le
    intro key
    have small := (b.validators key).effectiveBalance.isLt
    unfold Validator.settledBalance
    split_ifs
    · exact small.le.trans (by norm_num)
    · exact Nat.zero_le _

theorem Ready.opens {timestamp now : ℕ} {b : Books} (ready : b.Ready now) (forward : now ≤ timestamp)
    (clock : timestamp < 2 ^ 64) : b.Opens timestamp := by
  refine ⟨ready.tidy.current.trans forward, ?_⟩
  intro _
  obtain ⟨smooths, balance⟩ := (ready.checkpoint forward).small clock
  exact ⟨smooths.trans_lt (by norm_num), balance.trans_lt (by norm_num)⟩

/-- Ready books can release every member. -/
theorem Ready.releasable {now : ℕ} {b : Books} {key : Word} (ready : b.Ready now)
    (registered : (b.validators key).Registered) : b.Releasable (b.validators key) := by
  obtain ⟨tidy, ⟨settled, pending, allocated⟩, shares, _⟩ := ready
  refine ⟨?_, ?_, ?_⟩
  · intro late
    obtain ⟨_, balance, allocation⟩ := Validator.buckets_pending _ late
    have inside := tidy.inside key
    refine ⟨?_, by omega, ?_⟩
    · rw [pending, ← balance]
      exact Ledger.le_total (Validator.pendingBalance b.lastRebalance) registered
    · rw [allocated, ← allocation]
      exact Ledger.le_total (Validator.allocation b.lastRebalance) registered
  · intro early
    obtain ⟨balance, _, _⟩ := Validator.buckets_settled _ (Nat.lt_of_not_le early)
    rw [settled, ← balance]
    exact Ledger.le_total (Validator.settledBalance b.lastRebalance) registered
  · rw [shares.smooths]
    exact Ledger.le_total (Validator.claimable b.lastRebalance) registered

end Books

namespace Pool

variable {B : Type} {G : ReentrancyGuard}

/-- The checked operations of `_exit` succeed on a releasable validator. -/
theorem releaseShares_of_releasable {validator : Validator} {s : Pool B G}
    (releasable : s.books.Releasable validator) (small : s.smooths < 2 ^ 256) :
    releaseShares validator s = .ok (s.withBooks (s.books.release validator)) := by
  have shares : validator.claimable s.lastRebalance ≤ s.smooths := releasable.shares
  have narrow := validator.effectiveBalance.isLt
  unfold releaseShares
  by_cases late : s.lastRebalance ≤ validator.start
  · obtain ⟨balance, inside, allocated⟩ := releasable.pending late
    have balance : validator.effectiveBalance.toNat ≤ s.pendingEB := balance
    have inside : validator.start - s.lastRebalance ≤ REBALANCE_PERIOD := inside
    have allocated : validator.effectiveBalance.toNat *
        (REBALANCE_PERIOD - (validator.start - s.lastRebalance)) ≤ s.pendingSmooths := allocated
    have fits : validator.effectiveBalance.toNat *
        (REBALANCE_PERIOD - (validator.start - s.lastRebalance)) < 2 ^ 256 :=
      calc validator.effectiveBalance.toNat * (REBALANCE_PERIOD - (validator.start - s.lastRebalance))
        _ ≤ 2 ^ 64 * REBALANCE_PERIOD := Nat.mul_le_mul narrow.le (Nat.sub_le _ _)
        _ < 2 ^ 256 := by norm_num [REBALANCE_PERIOD]
    have claimed : validator.claimable s.lastRebalance = validator.smooths := if_pos late
    rw [claimed] at shares
    rw [if_pos late, sub_ok balance, ok_bind, sub_ok late, ok_bind, sub_ok inside, ok_bind, mul_ok fits, ok_bind,
      sub_ok allocated, ok_bind, sub_ok shares, ok_bind, Books.release_pending (b := s.books) late,
      books_lastRebalance, claimed]
    rfl
  · have balance : validator.effectiveBalance.toNat ≤ s.totalEB := releasable.settled late
    rw [if_neg late, sub_ok balance, ok_bind, getShares_of_lt late (shares.trans_lt small), ok_bind, sub_ok shares,
      ok_bind, Books.release_settled (b := s.books) late]
    rfl

/-- `_exit` succeeds on a releasable validator whose bond is in the pool, unless the recipient rejects it. -/
theorem internalExit_of_releasable {callback : Callback B G} {key : Word} {recipient : Address}
    {s : Pool B G} (idle : s.status = G.notEntered) (releasable : s.books.Releasable (s.validators key))
    (small : s.smooths < 2 ^ 256) (bonded : (s.validators key).bond ≤ s.totalBond)
    (funded : s.totalBond ≤ s.balance)
    (accepts : recipient = s.self ∨ ∀ paid, ∃ left, callback paid = .ok left) :
    ∃ after, internalExit callback key recipient s = .ok after := by
  have opens := nonReentrantBefore_idle idle
  have released := releaseShares_of_releasable (s := { s with status := G.entered }) releasable small
  obtain ⟨paid, sent⟩ := sendEther_of_accepts
    (s := ({ s with status := G.entered } : Pool B G).release (s.validators key)) (bonded.trans funded) accepts
  refine ⟨nonReentrantAfter (paid.remove key), ?_⟩
  apply bind_of_ok opens
  apply bind_of_ok released
  apply bind_of_ok (sub_ok bonded)
  apply bind_of_ok sent
  rfl

/-- The bond of a member is part of the bonds. -/
theorem Secure.bonded {s : Pool B G} {key : Word} (secure : s.Secure 0)
    (member : (s.validators key).Registered) : (s.validators key).bond ≤ s.totalBond := by
  have bonds := secure.bonds
  have count : 0 < s.registered.card := Finset.card_pos.mpr ⟨key, Ledger.mem_keys.mpr member⟩
  have share := Nat.mul_le_mul_left BOND count
  rw [secure.each key member]
  omega

/-- `_exit` succeeds on every member of an idle pool with ready books. -/
theorem internalExit_of_ready {now : ℕ} {callback : Callback B G} {key : Word} {s : Pool B G}
    (idle : s.status = G.notEntered) (secure : s.Secure 0) (ready : s.books.Ready now) (clock : now < 2 ^ 64)
    (member : (s.validators key).Registered) (accepts : ∀ paid, ∃ left, callback paid = .ok left)
    (recipient : Address) : ∃ after, internalExit callback key recipient s = .ok after := by
  have small : s.smooths < 2 ^ 256 := (ready.small clock).1.trans_lt (by norm_num)
  exact internalExit_of_releasable idle (ready.releasable member) small (secure.bonded member)
    secure.covered (.inr accepts)

end Pool

section Quiet

variable {B : Type} {G : ReentrancyGuard} [Bytes32 B] [DecidableEq B]

/-- These are the requests that remove a validator: its owner exits, an accepted proof shows a wrong fee
recipient, or an accepted proof shows that the validator is inactive. -/
inductive RemovalRequest (env : Env B) (msg : Msg) (s : Pool B G) (key : Word) : Message B → Prop
  | exit (owner : msg.sender = (s.validators key).withdrawal) :
      RemovalRequest env msg s key (.exit key)
  | slash {indices : List ℕ} {proof : List B} {feeRecipient : Address} {timestamp : Uint64}
      {result : Bool × HashMap B}
      (accepted : BeaconOracle.verifyFeeRecipient env indices proof key feeRecipient timestamp s.transient =
        .ok result) (wrong : feeRecipient ≠ s.self) :
      RemovalRequest env msg s key (.slashBadFeeRecipient indices proof key feeRecipient timestamp)
  | retire {validatorIndex : Uint64} {gIndex : ℕ} {validatorProof : List B}
      {validator : BeaconChainValidator} {ts : Uint64} (same : validatorIndex.setWidth 256 = key)
      (located : validatorGIndex validatorIndex = .ok gIndex)
      (accepted : BeaconOracle.verifyValidator env validatorProof validator gIndex ts = .ok true)
      (inactive : BeaconOracle.isActiveValidator env validator = .ok false) :
      RemovalRequest env msg s key (.updateValidator validatorIndex validatorProof validator ts)

theorem quiet_ready {trace : List (Move (World B G) (Input B))} {world : World B G}
    (run : Run Deployed (fun move => Succeeds move ∧ Quiet move ∧
      (WithdrawsInPlace move ∧ UpdatesAtRebalance move)) trace world) :
    world.pool.books.Ready world.now := by
  refine (quiet_invariant (fun now b => b.Ready now) ?_ ?_ run).2
  · intro world deployed
    refine ⟨deployed.tidy, deployed.buckets, deployed.shares, ?_⟩
    obtain ⟨self, balance, created⟩ := deployed
    rw [created]
    exact fun _ => Nat.zero_le _
  · intro move operation succeeds met performs tidy ready step
    obtain ⟨inPlace, level⟩ := met
    have still := (withdrawsWhen_iff performs step.opens).mp inPlace
    refine ⟨tidy.step succeeds.1 step, (ready.buckets.step_iff tidy succeeds.1 step).mpr still, ?_, ?_⟩
    · apply ready.shares.step tidy succeeds.1 step
      · intro key claims
        exact (still key claims).imp_left Eq.le
      · intro key effectiveBalance banks
        subst banks
        exact level.bank performs (step.opens nofun)
    · intro key
      exact (step.touch tidy succeeds.1 key).banked ((tidy.past key).trans succeeds.1) (ready.banked key)

/-- A request succeeds on an idle pool whose books are ready after the rebalance. -/
theorem RemovalRequest.dispatch {env : Env B} {msg : Msg} {callback : Callback B G} {s : Pool B G}
    {key : Word} {message : Message B} (request : RemovalRequest env msg s key message)
    (unpaid : msg.value = 0) (opens : s.books.Opens env.timestamp)
    (member : ((s.checkpoint env.timestamp).validators key).Registered)
    (exits : ∀ map recipient, ∃ after, internalExit callback key recipient
      { s.checkpoint env.timestamp with transient := map } = .ok after) :
    ∃ after, dispatch env msg callback s message = .ok after := by
  have free : nonPayable msg = .ok () := require_ok unpaid
  have settles := internalRebalance_of_opens opens
  cases request with
  | exit owner =>
      obtain ⟨after, success⟩ := exits s.transient ((s.checkpoint env.timestamp).validators key).withdrawal
      rw [← checkpoint_validators env.timestamp] at owner
      refine ⟨after, ?_⟩
      apply bind_of_ok free
      apply bind_of_ok settles
      exact bind_of_ok (require_ok owner) success
  | @slash indices proof feeRecipient timestamp result accepted wrong =>
      obtain ⟨verified, map⟩ := result
      obtain ⟨after, success⟩ := exits map msg.sender
      refine ⟨after, ?_⟩
      apply bind_of_ok free
      apply bind_of_ok settles
      apply bind_of_ok (require_ok member)
      apply bind_of_ok accepted
      exact bind_of_ok (require_ok wrong) success
  | retire same located accepted inactive =>
      subst same
      obtain ⟨after, success⟩ := exits s.transient ((s.checkpoint env.timestamp).validators _).withdrawal
      refine ⟨after, ?_⟩
      apply bind_of_ok free
      apply bind_of_ok settles
      apply bind_of_ok (require_ok member)
      apply bind_of_ok located
      apply bind_of_ok accepted
      exact bind_of_ok inactive success

/-- A registered validator can be removed at every later time, whichever way its removal is requested. -/
theorem removal_succeeds {trace : List (Move (World B G) (Input B))} {world : World B G}
    (run : Run Deployed (fun move => Succeeds move ∧ Quiet move ∧
      (WithdrawsInPlace move ∧ UpdatesAtRebalance move)) trace world)
    (i : Word) (registered : i ∈ world.pool.registered) (input : Input B)
    (later : world.now ≤ input.env.timestamp) (unpaid : input.call.msg.value = 0)
    (accepts : input.call.accepts = true)
    (request : RemovalRequest input.env input.call.msg (world.pool.begin input.fresh) i
      input.call.message) :
    ∃ after, input.call.execute input.env (world.pool.begin input.fresh) = .ok after := by
  have clock := input.env.timestamp_lt
  have ready := quiet_ready run
  obtain ⟨idle, secure⟩ := run_secure (run.weaken fun _ all => all.1)
  obtain ⟨begun, _⟩ := secure.received input.fresh input.call.msg
  have unchanged : ((world.pool.begin input.fresh).receive input.call.msg).books = world.pool.books :=
    begin_books input.fresh world.pool
  have settled := ready.checkpoint later
  have opens := ready.opens later clock
  rw [← unchanged] at settled opens
  have member : ((((world.pool.begin input.fresh).receive input.call.msg).checkpoint
      input.env.timestamp).validators i).Registered := by
    rw [checkpoint_validators, ← books_validators, unchanged]
    exact Ledger.mem_keys.mp registered
  have listens (paid : Pool B G) : ∃ left, input.call.callback input.env paid = .ok left :=
    ⟨executeAll input.env input.call.reentry paid, by rw [Call.callback, if_pos accepts]⟩
  have arrived : RemovalRequest input.env input.call.msg
      ((world.pool.begin input.fresh).receive input.call.msg) i input.call.message := by
    generalize input.call.message = message at request
    cases request with
    | exit owner => exact .exit owner
    | slash accepted wrong => exact .slash accepted wrong
    | retire same located accepted inactive => exact .retire same located accepted inactive
  rw [Call.execute_eq]
  refine arrived.dispatch unpaid opens member ?_
  intro map recipient
  have whole := begun.checkpoint opens
  apply internalExit_of_ready
  · exact (begin_status input.fresh world.pool).trans idle
  · exact whole.congr rfl le_rfl rfl whole.covered
  · exact settled
  · exact clock
  · exact member
  · exact listens

end Quiet

theorem Sample.inPlace_met : Run Deployed (fun move => Succeeds move ∧ Quiet move ∧
    (WithdrawsInPlace move ∧ UpdatesAtRebalance move)) Sample.inPlaceTrace Sample.inPlace := by
  apply Sample.inPlace_run.weaken
  rintro move ⟨⟨succeeds, quiet⟩, withdraws, updates⟩
  exact ⟨succeeds, quiet, withdraws.imp fun _ _ same => .inl same, updates.imp fun _ _ _ same => .inl same⟩

/-- After a withdrawal in place the validator can leave. -/
theorem inPlace_leaves :
    ∃ after, Sample.leave.call.execute Sample.leave.env (Sample.inPlace.pool.begin true) = .ok after :=
  removal_succeeds Sample.inPlace_met 5 (Ledger.mem_keys.mpr (by decide +kernel)) Sample.leave
    (by decide +kernel) rfl rfl (.exit (by decide +kernel))

/-- After a withdrawal the exit of its validator reverts, although its owner asks for it. -/
theorem claimed_locked :
    Run Deployed (fun move => Succeeds move ∧ Quiet move)
      [Sample.joined.move Sample.claim, SampleWorld.deployed.move Sample.join] Sample.claimed ∧
    5 ∈ Sample.claimed.pool.registered ∧ Sample.claimed.now ≤ Sample.leave.env.timestamp ∧
    RemovalRequest Sample.leave.env Sample.leave.call.msg (Sample.claimed.pool.begin true) 5
      Sample.leave.call.message ∧
    ¬ ∃ after, Sample.leave.call.execute Sample.leave.env (Sample.claimed.pool.begin true) = .ok after := by
  refine ⟨Sample.claimed_run, Ledger.mem_keys.mpr (by decide +kernel), by decide +kernel,
    .exit (by decide +kernel), ?_⟩
  rintro ⟨after, success⟩
  have reverts : (Sample.leave.call.execute Sample.leave.env (Sample.claimed.pool.begin true)).isOk = false := by
    decide +kernel
  rw [success] at reverts
  exact absurd reverts (by simp [Except.isOk, Except.toBool])

end SmoothlyPool
