import SmoothlyPool.Proof.Pool.Shares
import SmoothlyPool.Proof.Pool.Reward

namespace SmoothlyPool

open Pool Transition

/-- This is a change of the membership at a time. -/
inductive Change where
  | join (timestamp : ℕ) (key : Word) (effectiveBalance : Uint64)
  | leave (timestamp : ℕ) (key : Word)

/-- The changes are newest first.  A member has an effective balance and a time of registration. -/
def roster : List Change → Word → Option (Uint64 × ℕ)
  | [], _ => none
  | .join timestamp target effectiveBalance :: older, key =>
      if key = target then some (effectiveBalance, timestamp) else roster older key
  | .leave _ target :: older, key => if key = target then none else roster older key

namespace Validator

/-- The record belongs to this member of the roster, who has banked nothing. -/
def Listed (entry : Option (Uint64 × ℕ)) (validator : Validator) : Prop :=
  match entry with
  | none => validator = .unset
  | some (effectiveBalance, start) => validator.Registered ∧
      validator.effectiveBalance = effectiveBalance ∧ validator.start = start ∧ validator.smooths = 0

theorem Listed.registered_iff {entry : Option (Uint64 × ℕ)} {validator : Validator}
    (listed : validator.Listed entry) : validator.Registered ↔ entry.isSome = true := by
  cases entry with
  | none =>
      obtain rfl : validator = .unset := listed
      simp [Registered, unset]
  | some member => simp [listed.1]

/-- The share of a listed validator is its balance for the time since its registration. -/
theorem Listed.claimable {entry : Option (Uint64 × ℕ)} {validator : Validator} {lastRebalance : ℕ}
    (listed : validator.Listed entry) :
    validator.claimable lastRebalance = validator.balance * (lastRebalance - validator.start) := by
  have empty : validator.smooths = 0 := by
    cases entry with
    | none =>
        obtain rfl : validator = .unset := listed
        rfl
    | some member => exact listed.2.2.2
  rw [claimable_eq, empty, Nat.add_zero, Nat.mul_comm]
  rfl

/-- Two validators on one entry have one balance and one start. -/
theorem Listed.unique {entry : Option (Uint64 × ℕ)} {first second : Validator} (listed : first.Listed entry)
    (also : second.Listed entry) :
    first.balance = second.balance ∧ first.start = second.start := by
  cases entry with
  | none =>
      obtain rfl : first = .unset := listed
      obtain rfl : second = .unset := also
      exact ⟨rfl, rfl⟩
  | some member =>
      obtain ⟨_, balance, start, _⟩ := listed
      obtain ⟨_, otherBalance, otherStart, _⟩ := also
      rw [Validator.balance, Validator.balance, balance, start, otherBalance, otherStart]
      exact ⟨rfl, rfl⟩

end Validator

variable {B : Type} {G : ReentrancyGuard}

/-- A registration or a removal changes the membership.  An active update is not a change. -/
def Change.of (move : Move (World B G) (Input B)) : Option Change :=
  match move.label.call.message with
  | .register validatorIndex _ validator _ =>
      some (.join move.label.env.timestamp (validatorIndex.setWidth 256) validator.effectiveBalance)
  | .updateValidator validatorIndex _ _ _ =>
      some (.leave move.label.env.timestamp (validatorIndex.setWidth 256))
  | .slashBadFeeRecipient _ _ validatorIndex _ _ => some (.leave move.label.env.timestamp validatorIndex)
  | .exit validatorIndex => some (.leave move.label.env.timestamp validatorIndex)
  | _ => none

/-- These are the changes of a run. -/
def changes (trace : List (Move (World B G) (Input B))) : List Change := trace.filterMap Change.of

/-- The move makes no withdrawal and no active update. -/
def ChangesMembers (move : Move (World B G) (Input B)) : Prop :=
  (∀ key timestamp, ¬ Withdraws move key timestamp) ∧
  ∀ validatorIndex validatorProof validator ts,
    move.label.call.message = .updateValidator validatorIndex validatorProof validator ts →
    BeaconOracle.isActiveValidator move.label.env validator ≠ .ok true

/-- The newest move is a rebalance that takes effect at the time. -/
def EndsWithRebalance (time : ℕ) (trace : List (Move (World B G) (Input B))) : Prop :=
  ∃ move older, trace = move :: older ∧ move.label.call.message = .rebalance ∧
    move.label.env.timestamp = time ∧ REBALANCE_PERIOD < time - move.before.pool.lastRebalance

/-- Such a move performs the operation of its change. -/
theorem ChangesMembers.change {move : Move (World B G) (Input B)} {operation : Books.Operation}
    (quiet : ChangesMembers move)
    (performs : Performs move.label.env move.label.call.message operation) :
    (operation = .hold ∨ operation = .settle) ∧ Change.of move = none ∨
    (∃ key effectiveBalance withdrawal, operation = .enrol key effectiveBalance withdrawal ∧
      Change.of move = some (.join move.label.env.timestamp key effectiveBalance)) ∨
    ∃ key, operation = .leave key ∧ Change.of move = some (.leave move.label.env.timestamp key) := by
  obtain ⟨noWithdrawal, noUpdate⟩ := quiet
  unfold Change.of
  generalize asked : move.label.call.message = message at performs
  cases performs with
  | receive => exact .inl ⟨.inl rfl, rfl⟩
  | donateETH => exact .inl ⟨.inl rfl, rfl⟩
  | rebalance => exact .inl ⟨.inr rfl, rfl⟩
  | register => exact .inr (.inl ⟨_, _, _, rfl, rfl⟩)
  | withdraw => exact absurd ⟨_, _, asked⟩ (noWithdrawal _ _)
  | update active => exact absurd active (noUpdate _ _ _ _ asked)
  | retire inactive => exact .inr (.inr ⟨_, rfl, rfl⟩)
  | slash => exact .inr (.inr ⟨_, rfl, rfl⟩)
  | exit => exact .inr (.inr ⟨_, rfl, rfl⟩)

namespace Books

/-- A registration writes the record of a new member. -/
theorem Step.enrolled {timestamp : ℕ} {b next : Books} {key : Word} {effectiveBalance : Uint64}
    {withdrawal : Address} (step : Step timestamp b (.enrol key effectiveBalance withdrawal) next) :
    ¬ (b.validators key).Registered ∧ 0 < timestamp ∧
    next.validators =
      Function.update b.validators key ((b.validators key).enrol effectiveBalance withdrawal timestamp) := by
  cases step with
  | act opens action =>
      cases action with
      | enrol vacant narrow genesis inside =>
          rw [checkpoint_validators] at vacant
          refine ⟨vacant, lt_of_lt_of_le (by decide) genesis, ?_⟩
          rw [enrol_validators, checkpoint_validators]

/-- A removal deletes the record. -/
theorem Step.left {timestamp : ℕ} {b next : Books} {key : Word} (step : Step timestamp b (.leave key) next) :
    next.validators = Function.update b.validators key .unset := by
  cases step with
  | act opens action =>
      cases action with
      | leave present releasable =>
          show Function.update ((b.checkpoint timestamp).release _).validators key .unset = _
          rw [release_validators, checkpoint_validators]

/-- A plain transfer and a rebalance leave the records alone. -/
theorem Step.untouched {timestamp : ℕ} {b next : Books} {operation : Operation}
    (step : Step timestamp b operation next) (idle : operation = .hold ∨ operation = .settle) :
    next.validators = b.validators := by
  cases step with
  | hold => rfl
  | act opens action =>
      cases action with
      | settle => exact checkpoint_validators timestamp b
      | _ => simp at idle

theorem Step.settled {timestamp : ℕ} {b next : Books} (step : Step timestamp b .settle next) :
    next = b.checkpoint timestamp := by
  cases step with
  | act opens action =>
      cases action with
      | settle => rfl

end Books

/-- A step of such a move writes what its change says. -/
theorem ChangesMembers.listed {move : Move (World B G) (Input B)} {operation : Books.Operation}
    {trace : List (Move (World B G) (Input B))} {b next : Books} {now : ℕ} (quiet : ChangesMembers move)
    (performs : Performs move.label.env move.label.call.message operation) (tidy : b.Tidy now)
    (step : Books.Step move.label.env.timestamp b operation next)
    (listed : ∀ key, (b.validators key).Listed (roster (changes trace) key)) (key : Word) :
    (next.validators key).Listed (roster (changes (move :: trace)) key) := by
  unfold changes
  rcases quiet.change performs with ⟨idle, none⟩ | ⟨target, effectiveBalance, withdrawal, rfl, joins⟩ |
    ⟨target, rfl, leaves⟩
  · rw [List.filterMap_cons_none none, step.untouched idle]
    exact listed key
  · obtain ⟨vacant, positive, records⟩ := step.enrolled
    rw [List.filterMap_cons_some joins, roster, records]
    by_cases same : key = target
    · subst same
      rw [if_pos rfl, Function.update_self, tidy.vacant key vacant]
      exact ⟨positive.ne', rfl, rfl, rfl⟩
    · rw [if_neg same, Function.update_of_ne same]
      exact listed key
  · rw [List.filterMap_cons_some leaves, roster, step.left]
    by_cases same : key = target
    · subst same
      rw [if_pos rfl, Function.update_self]
      rfl
    · rw [if_neg same, Function.update_of_ne same]
      exact listed key

variable [Bytes32 B] [DecidableEq B]

/-- The records of the pool are the roster of its changes. -/
theorem quiet_listed {trace : List (Move (World B G) (Input B))} {world : World B G}
    (run : Run Deployed (fun move => Succeeds move ∧ Quiet move ∧ ChangesMembers move) trace world)
    (key : Word) : (world.pool.validators key).Listed (roster (changes trace) key) := by
  induction run generalizing key with
  | start deployed =>
      obtain ⟨self, balance, created⟩ := deployed
      rw [created]
      rfl
  | next move earlier moves ih =>
      obtain ⟨succeeds, quiet, members⟩ := moves
      obtain ⟨operation, performs, step⟩ := succeeds.step quiet
      have tidy := quiet_tidy (earlier.weaken fun _ all => ⟨all.1, all.2.1⟩)
      exact members.listed performs tidy step ih key

/-- A rebalance that takes effect empties the pending sums and credits every member up to its time. -/
theorem EndsWithRebalance.level {time : ℕ} {trace : List (Move (World B G) (Input B))} {world : World B G}
    (run : Run Deployed (fun move => Succeeds move ∧ Quiet move ∧ ChangesMembers move) trace world)
    (ends : EndsWithRebalance time trace) :
    world.pool.smooths = ∑ i ∈ world.pool.registered,
      (world.pool.validators i).balance * (time - (world.pool.validators i).start) ∧
    world.pool.totalEB = ∑ i ∈ world.pool.registered, (world.pool.validators i).balance ∧
    world.pool.pendingEB = 0 ∧ world.pool.pendingSmooths = 0 := by
  have shares : world.pool.books.Shares := by
    apply quiet_shares (run.weaken _)
    rintro move ⟨succeeds, quiet, noWithdrawal, noUpdate⟩
    refine ⟨succeeds, quiet, ?_, ?_⟩
    · intro indices proof validatorIndex timestamp c asked
      exact absurd ⟨indices, proof, asked⟩ (noWithdrawal validatorIndex timestamp)
    · intro validatorIndex validatorProof validator ts c asked active
      exact absurd active (noUpdate _ _ _ _ asked)
  have settled : world.pool.lastRebalance = time ∧ world.pool.pendingEB = 0 ∧
      world.pool.pendingSmooths = 0 := by
    obtain ⟨move, older, rfl, asked, rfl, due⟩ := ends
    cases run with
    | next _ earlier moves =>
        obtain ⟨operation, performs, step⟩ := moves.1.step moves.2.1
        rw [asked] at performs
        cases performs with
        | rebalance =>
            have books := step.settled
            rw [Books.checkpoint_due due] at books
            exact ⟨congrArg Books.lastRebalance books, congrArg Books.pendingEB books,
              congrArg Books.pendingSmooths books⟩
  obtain ⟨rebalanced, noBalance, noSmooths⟩ := settled
  refine ⟨?_, ?_, noBalance, noSmooths⟩
  · rw [← rebalanced]
    exact shares.smooths.trans (Finset.sum_congr rfl fun key _ => (quiet_listed run key).claimable)
  · have whole : world.pool.totalEB + world.pool.pendingEB =
      ∑ i ∈ world.pool.registered, (world.pool.validators i).balance := shares.whole
    rwa [noBalance, Nat.add_zero] at whole

/-- Two runs with the same registrations and removals that end with a rebalance at the same time end with
the same sums: every member is credited with its balance for the time since its registration, whichever
rebalances took effect before. -/
theorem schedule_irrelevant {time : ℕ} {trace other : List (Move (World B G) (Input B))}
    {first second : World B G}
    (run : Run Deployed (fun move => Succeeds move ∧ Quiet move ∧ ChangesMembers move) trace first)
    (otherRun : Run Deployed (fun move => Succeeds move ∧ Quiet move ∧ ChangesMembers move) other second)
    (same : changes trace = changes other) (ends : EndsWithRebalance time trace)
    (otherEnds : EndsWithRebalance time other) :
    first.pool.smooths = second.pool.smooths ∧ first.pool.totalEB = second.pool.totalEB ∧
    ∀ world ∈ [first, second],
      world.pool.smooths = ∑ i ∈ world.pool.registered,
        (world.pool.validators i).effectiveBalance.toNat * (time - (world.pool.validators i).start) ∧
      world.pool.pendingEB = 0 ∧ world.pool.pendingSmooths = 0 := by
  obtain ⟨smooths, balance, noBalance, noSmooths⟩ := ends.level run
  obtain ⟨otherSmooths, otherBalance, noOtherBalance, noOtherSmooths⟩ := otherEnds.level otherRun
  have listed := quiet_listed run
  have otherListed := quiet_listed otherRun
  rw [← same] at otherListed
  have members : first.pool.registered = second.pool.registered := by
    ext key
    rw [Pool.registered, Pool.registered, Ledger.mem_keys, Ledger.mem_keys, (listed key).registered_iff,
      (otherListed key).registered_iff]
  refine ⟨?_, ?_, ?_⟩
  · rw [smooths, otherSmooths, members]
    apply Finset.sum_congr rfl
    intro key _
    obtain ⟨balances, starts⟩ := (listed key).unique (otherListed key)
    rw [balances, starts]
  · rw [balance, otherBalance, members]
    apply Finset.sum_congr rfl
    intro key _
    exact ((listed key).unique (otherListed key)).1
  · intro world member
    simp only [List.mem_cons, List.not_mem_nil, or_false] at member
    rcases member with rfl | rfl
    · exact ⟨smooths, noBalance, noSmooths⟩
    · exact ⟨otherSmooths, noOtherBalance, noOtherSmooths⟩

namespace Sample

/-- The last rebalance of both runs. -/
def creditAll : Input Term := rebalance 1703629000

theorem join_changes : ChangesMembers (SampleWorld.deployed.move join) :=
  ⟨fun _ _ ⟨_, _, asked⟩ => (nomatch asked), nofun⟩

theorem rebalance_changes (world : SampleWorld) (time : Uint64) : ChangesMembers (world.move (rebalance time)) :=
  ⟨fun _ _ ⟨_, _, asked⟩ => (nomatch asked), nofun⟩

theorem creditedTwice_run : Run Deployed (fun move => Succeeds move ∧ Quiet move ∧ ChangesMembers move)
    [settled.move creditAll, joined.move settle, SampleWorld.deployed.move join] (settled.next creditAll) :=
  World.run_move _ (settled_run ⟨join_succeeds, rfl, join_changes⟩ ⟨settle_succeeds, rfl, rebalance_changes _ _⟩)
    ⟨World.move_succeeds (by decide +kernel), rfl, rebalance_changes _ _⟩

theorem creditedOnce_run : Run Deployed (fun move => Succeeds move ∧ Quiet move ∧ ChangesMembers move)
    [joined.move creditAll, SampleWorld.deployed.move join] (joined.next creditAll) :=
  World.run_move _ (joined_run ⟨join_succeeds, rfl, join_changes⟩)
    ⟨World.move_succeeds (by decide +kernel), rfl, rebalance_changes _ _⟩

end Sample

/-- One rebalance after the period gives the same sums as two. -/
theorem creditedTwice_same :
    (Sample.settled.next Sample.creditAll).pool.smooths = (Sample.joined.next Sample.creditAll).pool.smooths :=
  (schedule_irrelevant Sample.creditedTwice_run Sample.creditedOnce_run rfl
    ⟨_, _, rfl, rfl, rfl, by decide +kernel⟩ ⟨_, _, rfl, rfl, rfl, by decide +kernel⟩).1

end SmoothlyPool
