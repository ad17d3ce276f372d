import SmoothlyPool.Proof.Pool.Reward
import SmoothlyPool.Proof.Pool.Kept
import SmoothlyPool.Proof.Pool.Nesting
import SmoothlyPool.Proof.Pool.Solvency

namespace SmoothlyPool

open Checked Pool Transition

variable {B : Type} {G : ReentrancyGuard}

namespace Books

/-- The validator has nothing left to claim until the last rebalance moves on from the given time. -/
def Spent (time : ℕ) (key : Word) (b : Books) : Prop :=
  time ≤ b.lastRebalance ∧ (b.lastRebalance = time →
    (b.validators key).smooths = 0 ∧ (time ≤ (b.validators key).start ∨ ¬ (b.validators key).Registered))

/-- A write of another record leaves a spent record alone. -/
theorem Spent.write {time : ℕ} {key target : Word} {record : Validator} {b next : Books}
    (spent : b.Spent time key) (rebalanced : next.lastRebalance = b.lastRebalance)
    (records : next.validators = Function.update b.validators target record)
    (own : target = key → b.lastRebalance = time →
      record.smooths = 0 ∧ (time ≤ record.start ∨ ¬ record.Registered)) : next.Spent time key := by
  obtain ⟨forward, empty⟩ := spent
  unfold Spent
  rw [rebalanced, records]
  refine ⟨forward, ?_⟩
  intro level
  by_cases same : target = key
  · subst same
    rw [Function.update_self]
    exact own rfl level
  · rw [Function.update_of_ne (Ne.symm same)]
    exact empty level

/-- No part of a call lets the validator earn again before the next rebalance. -/
theorem spent_kept (time : ℕ) (key : Word) : Kept (Spent time key) where
  checkpoint timestamp b opens spent := by
    by_cases due : REBALANCE_PERIOD < timestamp - b.lastRebalance
    · rw [checkpoint_due due]
      have forward := spent.1
      exact ⟨show time ≤ timestamp by omega, fun level => absurd level (show timestamp ≠ time by omega)⟩
    · rwa [checkpoint_early due]
  action timestamp b operation next current mild action spent := by
    cases action with
    | settle => exact spent
    | @enrol target effectiveBalance withdrawal vacant narrow genesis inside =>
        refine spent.write rfl (enrol_validators ..) ?_
        rintro rfl level
        exact ⟨(spent.2 level).1, .inl (level.symm.trans_le current)⟩
    | @bank target effectiveBalance registered settled covered inside =>
        refine spent.write rfl (bank_validators ..) ?_
        rintro rfl level
        rcases (spent.2 level).2 with late | vacant
        · exact absurd (late.trans_lt settled) (by omega)
        · exact absurd registered vacant
    | claim registered enough => exact absurd rfl (mild _).1
    | leave present releasable => exact absurd rfl (mild _).2
  consume _ _ spent := spent
  restart target b spent := by
    refine spent.write rfl rfl ?_
    rintro _ level
    exact ⟨rfl, .inl level.ge⟩
  release validator b spent := by
    unfold Spent
    rwa [release_lastRebalance, release_validators]
  remove target b spent := by
    refine spent.write rfl rfl ?_
    rintro _ _
    exact ⟨rfl, .inr fun alive => alive rfl⟩

/-- The restart at the end of a withdrawal leaves the record spent. -/
theorem spent_restart (key : Word) (b : Books) : (b.restart key).Spent b.lastRebalance key := by
  refine ⟨le_rfl, ?_⟩
  intro _
  have restarted : (b.restart key).validators key = (b.validators key).restart b.lastRebalance :=
    Function.update_self ..
  rw [restarted]
  exact ⟨rfl, .inl le_rfl⟩

end Books

variable [Bytes32 B] [DecidableEq B]

/-- A withdrawal takes the claimable share out of `smooths`, pays the reward for it, and restarts the
record at the last rebalance, whatever its recipient calls. -/
theorem Succeeds.withdraws {move : Move (World B G) (Input B)} {key : Word} {timestamp : Uint64}
    (succeeds : Succeeds move) (idle : move.before.pool.status = G.notEntered)
    (withdraws : Withdraws move key timestamp) :
    ∃ (c : Books) (share rewards : ℕ) (left : Books), move.before.pool.books.Opens move.label.env.timestamp ∧
      move.before.pool.books.checkpoint move.label.env.timestamp = c ∧ (c.validators key).Registered ∧
      (c.validators key).claimable c.lastRebalance = share ∧
      Rewards move key (share * BPS / c.smooths * rewards / BPS) ∧
      left.restart key = move.after.pool.books ∧ left.lastRebalance = c.lastRebalance ∧
      left.smooths = c.smooths - share := by
  obtain ⟨_, _, executes⟩ := succeeds
  obtain ⟨indices, proof, asked⟩ := withdraws
  rw [Call.execute_eq, asked] at executes
  obtain ⟨c, map, eth, paid, opens, settles, registered, _, pays, priced, sent, same⟩ := withdraw_reward executes
  have begun : ((move.before.pool.begin move.label.fresh).receive move.label.call.msg).books =
      move.before.pool.books := begin_books move.label.fresh move.before.pool
  have books : move.before.pool.books.checkpoint move.label.env.timestamp = c.books := by
    rw [← begun, ← settles]
    rfl
  have unlocked : c.status = G.notEntered := by
    rw [← settles]
    exact (begin_status move.label.fresh move.before.pool).trans idle
  have inside : move.label.env.timestamp - c.lastRebalance ≤ REBALANCE_PERIOD := by
    rw [← settles]
    exact Books.checkpoint_inside move.label.env.timestamp _
  obtain ⟨_, calls, balance, _, closed⟩ := sent.window unlocked
  have steady := executeAll_steady (s := (({ c with transient := map } : Pool B G).consume
    ((c.validators key).claimable c.lastRebalance)).enter balance) calls rfl inside
  have smooths : paid.smooths = c.smooths - (c.validators key).claimable c.lastRebalance := by
    rw [closed]
    exact steady.1
  have rebalanced : paid.lastRebalance = c.lastRebalance := by
    rw [closed]
    exact steady.2
  have records : (c.validators key).Registered := registered
  refine ⟨c.books, _, c.balance - c.totalBond, paid.books, ?_, books, records, rfl, ?_, ?_, rebalanced, smooths⟩
  · rw [← begun]
    exact opens
  · rw [priced] at pays
    exact ⟨indices, proof, timestamp, asked, pays⟩
  · rw [← same]
    rfl

/-- A second withdrawal before the next rebalance pays nothing and takes nothing. -/
theorem second_withdrawal {first second : Move (World B G) (Input B)}
    {between older : List (Move (World B G) (Input B))} {key : Word} {earlier later : Uint64}
    (run : Run Deployed Succeeds (between ++ first :: older) second.before) (succeeds : Succeeds second)
    (withdrew : Withdraws first key earlier) (withdraws : Withdraws second key later)
    (level : first.after.pool.lastRebalance = second.after.pool.lastRebalance) :
    Rewards second key 0 ∧ second.after.pool.smooths = second.before.pool.smooths := by
  obtain ⟨began, before⟩ := run.split
  obtain ⟨_, _, _, left, _, _, _, _, _, restarted, _, _⟩ := began.withdraws (run_secure before).1 withdrew
  have spent : first.after.pool.books.Spent first.after.pool.lastRebalance key := by
    rw [← Pool.books_lastRebalance, ← restarted]
    exact Books.spent_restart key left
  obtain ⟨idle, held⟩ := (Books.spent_kept _ key).since (run_secure (.next first before began)).1 spent run
  obtain ⟨c, share, rewards, left, opens, settles, registered, claims, pays, restarted, same, smooths⟩ :=
    succeeds.withdraws idle withdraws
  have rebalanced : c.lastRebalance = first.after.pool.lastRebalance := by
    rw [level, ← Pool.books_lastRebalance, ← restarted, ← same]
    rfl
  have forward := held.1
  have early : ¬ REBALANCE_PERIOD < second.label.env.timestamp - second.before.pool.lastRebalance := by
    intro due
    rw [← settles, Books.checkpoint_due due] at rebalanced
    have moved : second.label.env.timestamp = first.after.pool.lastRebalance := rebalanced
    have stays : first.after.pool.lastRebalance ≤ second.before.pool.lastRebalance := forward
    omega
  have unchanged : c = second.before.pool.books := by
    rw [← settles, Books.checkpoint_early early]
  have nothing : share = 0 := by
    rw [← claims, unchanged]
    rw [unchanged] at rebalanced registered
    obtain ⟨empty, late | vacant⟩ := held.2 rebalanced
    · rw [Validator.claimable, if_pos (rebalanced.trans_le late)]
      exact empty
    · exact absurd registered vacant
  rw [nothing] at pays smooths
  constructor
  · simpa using pays
  · have after : second.after.pool.smooths = left.smooths := by
      rw [show second.after.pool.smooths = second.after.pool.books.smooths from rfl, ← restarted]
      rfl
    rw [after, smooths, unchanged]
    rfl

/-- While the last rebalance stays the same, each withdrawal of a validator after the first one pays nothing
and leaves `smooths` alone, whatever happens in between.  No withdrawal succeeds inside another call. -/
theorem one_payout_per_window {trace : List (Move (World B G) (Input B))} {world : World B G}
    (run : Run Deployed Succeeds trace world) (key : Word) :
    (∀ newer second between first older earlier later, trace = newer ++ second :: (between ++ first :: older) →
      Withdraws first key earlier → Withdraws second key later →
      first.after.pool.lastRebalance = second.after.pool.lastRebalance →
      Rewards second key 0 ∧ second.after.pool.smooths = second.before.pool.smooths) ∧
    (∀ move ∈ trace, ∀ inner s, Inside move.label.env move.label.call
        (move.before.pool.begin move.label.fresh) inner s →
      ∀ indices proof timestamp, inner.message = .withdraw indices proof key timestamp →
      ∀ after, inner.execute move.label.env s ≠ .ok after) := by
  constructor
  · intro newer second between first older earlier later split withdrew withdraws level
    subst split
    obtain ⟨succeeds, before⟩ := run.split
    exact second_withdrawal before succeeds withdrew withdraws level
  · intro move member inner s inside indices proof timestamp asked after success
    obtain ⟨older, newer, rfl⟩ := List.append_of_mem member
    obtain ⟨_, before⟩ := run.split
    have idle := (begin_status move.label.fresh move.before.pool).trans (run_secure before).1
    obtain ⟨operation, performs, mild⟩ := inside.mild (.inl idle) success
    rw [asked] at performs
    cases performs with
    | withdraw => exact (mild key).1 rfl

namespace Sample

/-- The validator 5 withdraws twice after the rebalance. -/
def claimFirst : Input Term := withdraw 1701814600 1701814600 5

@[irreducible] def claimedFirst : SampleWorld := settledBoth.next claimFirst

def claimAgain : Input Term := withdraw 1701814700 1701814700 5

theorem claimedAgain_run : Run Deployed Succeeds
    [claimedFirst.move claimAgain, settledBoth.move claimFirst, joinedBoth.move settle, joined.move joinToo,
      SampleWorld.deployed.move join] (claimedFirst.next claimAgain) := by
  have first : Run Deployed Succeeds [settledBoth.move claimFirst, joinedBoth.move settle,
      joined.move joinToo, SampleWorld.deployed.move join] claimedFirst := by
    unfold claimedFirst
    exact World.run_move _ (settledBoth_run join_succeeds joinToo_succeeds settleBoth_succeeds)
      (World.move_succeeds (by decide +kernel))
  exact World.run_move _ first (World.move_succeeds (by decide +kernel))

end Sample

/-- The second withdrawal of the validator pays nothing. -/
theorem claimed_once : Rewards (Sample.claimedFirst.move Sample.claimAgain) 5 0 ∧
    (Sample.claimedFirst.move Sample.claimAgain).after.pool.smooths = Sample.claimedFirst.pool.smooths :=
  (one_payout_per_window Sample.claimedAgain_run 5).1 [] _ [] (Sample.settledBoth.move Sample.claimFirst) _ _ _ rfl
    ⟨_, _, rfl⟩ ⟨_, _, rfl⟩ (by decide +kernel)

end SmoothlyPool
