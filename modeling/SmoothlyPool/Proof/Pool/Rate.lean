import SmoothlyPool.Proof.Pool.Parts
import SmoothlyPool.Proof.Pool.Reward
import SmoothlyPool.Proof.Pool.Solvency

namespace SmoothlyPool

open Checked Pool Transition ProRata

variable {B : Type} {G : ReentrancyGuard}

/-- These are the rewards of the pool, without the bonds. -/
def Pool.rewards (s : Pool B G) : ℕ := s.balance - s.totalBond

theorem Pool.release_smooths (validator : Validator) (s : Pool B G) :
    (s.release validator).smooths = s.smooths - validator.claimable s.lastRebalance := by
  show (s.books.release validator).smooths = _
  unfold Books.release
  split_ifs <;> rfl

variable [Bytes32 B] [DecidableEq B] {env : Env B} {operation : Books.Operation} {s r : Pool B G}

/-- No part of a call spends a bond, and no part before the next rebalance lowers the reward for a share. -/
theorem Part.keeps (part : Part env operation s r) (covered : s.totalBond ≤ s.balance) :
    r.totalBond ≤ r.balance ∧
    (r.lastRebalance = s.lastRebalance → Keeps s.smooths s.rewards r.smooths r.rewards) := by
  cases part with
  | receive amount =>
      have more : s.balance ≤ s.balance + amount := Nat.le_add_right _ _
      exact ⟨covered.trans more, fun _ => .grow _ (Nat.sub_le_sub_right more _)⟩
  | scratch status map => exact ⟨covered, fun _ => .refl _ _⟩
  | checkpoint opens =>
      refine ⟨covered, ?_⟩
      intro level
      by_cases due : REBALANCE_PERIOD < env.timestamp - s.lastRebalance
      · have moved : (s.checkpoint env.timestamp).lastRebalance = env.timestamp := by
          rw [Pool.checkpoint, Books.checkpoint_due due]
          rfl
        omega
      · rw [Pool.checkpoint, Books.checkpoint_early due]
        exact .refl _ _
  | enrol attested active address action =>
      cases action
      have same : s.balance + BOND - (s.totalBond + BOND) = s.balance - s.totalBond := Nat.add_sub_add_right ..
      exact ⟨Nat.add_le_add_right covered BOND, fun _ => .grow _ same.ge⟩
  | bank attested active action =>
      cases action
      exact ⟨covered, fun _ => .refl _ _⟩
  | @claim key share eth balance own registered shared enough solvent priced left =>
      have inside : eth ≤ s.balance - s.totalBond := priced.trans_le (payout_le enough)
      rcases left with rfl | rfl
      · exact ⟨covered, fun _ => .leave _ _ share⟩
      · refine ⟨show s.totalBond ≤ s.balance - eth by omega, ?_⟩
        intro level
        have rest : s.balance - eth - s.totalBond = s.rewards - payout BPS share s.smooths s.rewards := by
          rw [Nat.sub_right_comm, priced]
          rfl
        show Keeps s.smooths s.rewards (s.smooths - share) (s.balance - eth - s.totalBond)
        rw [rest]
        exact .claim BPS share s.smooths s.rewards
  | restart own => exact ⟨covered, fun _ => .refl _ _⟩
  | @release key balance own releasable bonded left =>
      have bonds : (s.release (s.validators key)).totalBond = s.totalBond - (s.validators key).bond := rfl
      have more : s.rewards ≤ balance - (s.totalBond - (s.validators key).bond) := by
        rw [Pool.rewards]
        omega
      refine ⟨show s.totalBond - (s.validators key).bond ≤ balance by omega, ?_⟩
      intro level
      show Keeps s.smooths s.rewards (s.release (s.validators key)).smooths _
      rw [Pool.release_smooths]
      exact (Keeps.leave _ _ _).trans (.grow _ more)
  | remove own => exact ⟨covered, fun _ => .refl _ _⟩

/-- The share of a member never falls within a call that neither withdraws for it nor removes it. -/
theorem Rewritten.claimable_le {key : Word} {lastRebalance later : ℕ} {before after : Validator}
    (rewritten : Rewritten env operation key lastRebalance before after)
    (others : operation ≠ .claim key ∧ operation ≠ .leave key) (member : before.Registered)
    (forward : lastRebalance ≤ later) (current : later ≤ env.timestamp) :
    after.Registered ∧ before.claimable lastRebalance ≤ after.claimable later := by
  rw [Validator.claimable_eq, Validator.claimable_eq]
  cases rewritten with
  | kept =>
      refine ⟨member, ?_⟩
      gcongr
  | enrolled vacant genesis attested active address => exact absurd member vacant
  | @banked record registered settled attested active =>
      have alive : env.timestamp ≠ 0 := by omega
      have earned : (lastRebalance - before.start) * before.effectiveBalance.toNat ≤
          (env.timestamp - before.start) * before.effectiveBalance.toNat := by
        gcongr
        exact forward.trans current
      refine ⟨alive, ?_⟩
      show _ ≤ (later - env.timestamp) * record.effectiveBalance.toNat +
        (before.smooths + (env.timestamp - before.start) * before.effectiveBalance.toNat)
      omega
  | restarted own => exact absurd own others.1
  | removed own => exact absurd own others.2

/-- A member stays when it is registered after every move, and it waits when no move withdraws for it. -/
def Waits (key : Word) (moves : List (Move (World B G) (Input B))) : Prop :=
  ∀ move ∈ moves, (move.after.pool.validators key).Registered ∧ ∀ timestamp, ¬ Withdraws move key timestamp

/-- A call before the next rebalance keeps the rate, and a later rebalance ends the comparison. -/
theorem Succeeds.keeps {move : Move (World B G) (Input B)} {trace : List (Move (World B G) (Input B))}
    (run : Run Deployed Succeeds trace move.before) (succeeds : Succeeds move) {left pot time : ℕ}
    (held : time ≤ move.before.pool.lastRebalance ∧ (move.before.pool.lastRebalance = time →
      Keeps left pot move.before.pool.smooths move.before.pool.rewards)) :
    time ≤ move.after.pool.lastRebalance ∧ (move.after.pool.lastRebalance = time →
      Keeps left pot move.after.pool.smooths move.after.pool.rewards) := by
  obtain ⟨operation, carries⟩ := succeeds.carries (run_idle run)
  have current : move.before.pool.lastRebalance ≤ move.label.env.timestamp := (run_clock run).trans succeeds.1
  have covered := (run_secure run).2.covered
  refine (carries.parts.invariant (fun s => s.totalBond ≤ s.balance ∧ s.lastRebalance ≤ move.label.env.timestamp ∧
    time ≤ s.lastRebalance ∧ (s.lastRebalance = time → Keeps left pot s.smooths s.rewards)) ?_
    ⟨covered, current, held⟩).2.2
  rintro s r part ⟨covered, current, past, keeps⟩
  obtain ⟨still, next⟩ := part.keeps covered
  obtain ⟨forward, later⟩ := part.clock current
  refine ⟨still, later, past.trans forward, ?_⟩
  intro level
  have same : s.lastRebalance = time := by omega
  exact (keeps same).trans (next (level.trans same.symm))

/-- A member that waits through a call keeps its share. -/
theorem Succeeds.waits {move : Move (World B G) (Input B)} {trace : List (Move (World B G) (Input B))}
    (run : Run Deployed Succeeds trace move.before) (succeeds : Succeeds move) {key : Word} {amount : ℕ}
    (registered : (move.after.pool.validators key).Registered)
    (waits : ∀ timestamp, ¬ Withdraws move key timestamp)
    (held : (move.before.pool.validators key).Registered ∧
      amount ≤ (move.before.pool.validators key).claimable move.before.pool.lastRebalance) :
    amount ≤ (move.after.pool.validators key).claimable move.after.pool.lastRebalance := by
  obtain ⟨operation, carries⟩ := succeeds.carries (run_idle run)
  have performs := carries.justified.performs
  have current : move.before.pool.lastRebalance ≤ move.label.env.timestamp := (run_clock run).trans succeeds.1
  have others : operation ≠ .claim key ∧ operation ≠ .leave key := by
    constructor
    · rintro rfl
      generalize asked : move.label.call.message = message at performs
      cases performs with
      | withdraw => exact waits _ ⟨_, _, asked⟩
    · intro leaves
      rw [carries.removed key leaves] at registered
      exact registered rfl
  refine (carries.parts.invariant (fun s => s.lastRebalance ≤ move.label.env.timestamp ∧
    (s.validators key).Registered ∧ amount ≤ (s.validators key).claimable s.lastRebalance) ?_ ⟨current, held⟩).2.2
  rintro s r part ⟨current, member, share⟩
  obtain ⟨forward, later⟩ := part.clock current
  obtain ⟨alive, grows⟩ := (part.record key).claimable_le others member forward later
  exact ⟨later, alive, share.trans grows⟩

/-- While the last rebalance stays the same, the rewards for one share never fall, whatever calls the members
and the recipients of ETH make.  A member that waits keeps at least its share, and a later withdrawal pays it
more than its part of the earlier rewards, less the roundings of one withdrawal. -/
theorem waiting_keeps_rewards {newer older : List (Move (World B G) (Input B))}
    {first : Move (World B G) (Input B)} {world : World B G}
    (run : Run Deployed Succeeds (newer ++ first :: older) world)
    (level : world.pool.lastRebalance = first.after.pool.lastRebalance) :
    ∃ rewards later, first.after.pool.totalETH = .ok rewards ∧ world.pool.totalETH = .ok later ∧
      world.pool.smooths ≤ first.after.pool.smooths ∧
      rewards * world.pool.smooths ≤ later * first.after.pool.smooths ∧
      ∀ key, (first.after.pool.validators key).Registered → Waits key newer →
        (first.after.pool.validators key).claimable first.after.pool.lastRebalance ≤
          (world.pool.validators key).claimable world.pool.lastRebalance ∧
        ∀ callback eth after, world.pool.internalWithdraw callback (world.pool.validators key) = .ok (eth, after) →
          ((first.after.pool.validators key).claimable first.after.pool.lastRebalance : ℚ) * rewards /
            first.after.pool.smooths - slack BPS later < eth := by
  obtain ⟨succeeds, before⟩ := run.split
  have began : Run Deployed Succeeds (first :: older) first.after := .next first before succeeds
  have rate : Keeps first.after.pool.smooths first.after.pool.rewards world.pool.smooths world.pool.rewards :=
    (since_moves (fun s => first.after.pool.lastRebalance ≤ s.lastRebalance ∧
      (s.lastRebalance = first.after.pool.lastRebalance →
        Keeps first.after.pool.smooths first.after.pool.rewards s.smooths s.rewards)) run
      ⟨le_rfl, fun _ => .refl _ _⟩ fun move _ trace earlier succeeds held => succeeds.keeps earlier held).2 level
  refine ⟨first.after.pool.rewards, world.pool.rewards, ?_, ?_, rate.leaves, rate.rate, ?_⟩
  · exact sub_ok (run_secure began).2.covered
  · exact sub_ok (run_secure run).2.covered
  intro key member waits
  have share := (since_moves (fun s => (s.validators key).Registered ∧
    (first.after.pool.validators key).claimable first.after.pool.lastRebalance ≤
      (s.validators key).claimable s.lastRebalance) run ⟨member, le_rfl⟩ (by
        intro move listed trace earlier succeeds held
        obtain ⟨registered, quiet⟩ := waits move listed
        exact ⟨registered, succeeds.waits earlier registered quiet held⟩)).2
  refine ⟨share, ?_⟩
  intro callback eth after success
  obtain ⟨_, _, priced, _⟩ := internalWithdraw_ok success
  have enabled := Nat.pos_of_ne_zero (internalWithdraw_enabled success)
  calc ((first.after.pool.validators key).claimable first.after.pool.lastRebalance : ℚ) *
        first.after.pool.rewards / first.after.pool.smooths - slack BPS world.pool.rewards
    _ ≤ ((world.pool.validators key).claimable world.pool.lastRebalance : ℚ) * first.after.pool.rewards /
          first.after.pool.smooths - slack BPS world.pool.rewards := by gcongr
    _ < payout BPS ((world.pool.validators key).claimable world.pool.lastRebalance) world.pool.smooths
          world.pool.rewards := rate.lt_payout (by decide) enabled _
    _ = eth := congrArg Nat.cast priced.symm

/-- The validator 6 waits while the validator 5 exits, and the recipient of the bond calls back. -/
theorem reentered_keeps_rewards :
    Sample.reentered.pool.smooths ≤ Sample.settledBoth.pool.smooths ∧
    (Sample.settledBoth.pool.validators 6).claimable Sample.settledBoth.pool.lastRebalance ≤
      (Sample.reentered.pool.validators 6).claimable Sample.reentered.pool.lastRebalance := by
  have run : Run Deployed Succeeds ([Sample.settledBoth.move Sample.leaveUpdating] ++
      Sample.joinedBoth.move Sample.settle :: [Sample.joined.move Sample.joinToo,
        SampleWorld.deployed.move Sample.join]) Sample.reentered := Sample.reentered_run
  have after : (Sample.joinedBoth.move Sample.settle).after = Sample.settledBoth := by
    unfold Sample.settledBoth
    rfl
  have waits : Waits 6 [Sample.settledBoth.move Sample.leaveUpdating] := by
    intro move member
    obtain rfl := List.mem_singleton.mp member
    exact ⟨by decide +kernel, fun _ ⟨_, _, asked⟩ => nomatch asked⟩
  obtain ⟨_, _, _, _, leaves, _, members⟩ := waiting_keeps_rewards run (by decide +kernel)
  have share := (members 6 (by rw [after]; decide +kernel) waits).1
  rw [after] at leaves share
  exact ⟨leaves, share⟩

end SmoothlyPool
