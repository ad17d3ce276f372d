import SmoothlyPool.Proof.Pool.Parts
import SmoothlyPool.Proof.Pool.Payout

namespace SmoothlyPool

open Pool Transition

variable {B : Type} {G : ReentrancyGuard} [Bytes32 B] [DecidableEq B]

/-- A withdrawal pays one amount. -/
theorem Rewards.unique {move : Move (World B G) (Input B)} {key : Word} {first second : ℕ}
    (pays : Rewards move key first) (also : Rewards move key second) : first = second := by
  obtain ⟨indices, proof, timestamp, asked, paid⟩ := pays
  obtain ⟨others, other, time, again, alsoPaid⟩ := also
  rw [asked] at again
  obtain ⟨rfl, rfl, -, rfl⟩ := Message.withdraw.inj again
  exact Except.ok.inj (paid.symm.trans alsoPaid)

theorem Rewards.withdraws {move : Move (World B G) (Input B)} {key : Word} {amount : ℕ}
    (pays : Rewards move key amount) : ∃ timestamp, Withdraws move key timestamp :=
  have ⟨indices, proof, timestamp, asked, _⟩ := pays
  ⟨timestamp, indices, proof, asked⟩

/-- A validator that has withdrawn, or that has no record, is spent. -/
theorem Succeeds.leaves_spent {move : Move (World B G) (Input B)} {key : Word} (succeeds : Succeeds move)
    (idle : move.before.pool.status = G.notEntered)
    (gone : (∃ timestamp, Withdraws move key timestamp) ∨ move.after.pool.validators key = .unset) :
    move.after.pool.books.Spent move.after.pool.lastRebalance key := by
  rcases gone with ⟨timestamp, withdraws⟩ | unset
  · obtain ⟨_, _, _, left, _, _, _, _, _, restarted, _, _⟩ := succeeds.withdraws idle withdraws
    rw [← Pool.books_lastRebalance, ← restarted]
    exact Books.spent_restart key left
  · refine ⟨le_rfl, ?_⟩
    intro _
    show (move.after.pool.validators key).smooths = 0 ∧ (_ ∨ ¬ (move.after.pool.validators key).Registered)
    rw [unset]
    exact ⟨rfl, .inr fun registered => registered rfl⟩

/-- A spent validator is paid nothing before the next rebalance. -/
theorem Succeeds.pays_nothing {move : Move (World B G) (Input B)} {key : Word} {amount : ℕ}
    (succeeds : Succeeds move) (idle : move.before.pool.status = G.notEntered)
    (spent : move.before.pool.books.Spent move.before.pool.lastRebalance key)
    (level : move.after.pool.lastRebalance = move.before.pool.lastRebalance) (pays : Rewards move key amount) :
    amount = 0 := by
  obtain ⟨_, withdraws⟩ := pays.withdraws
  obtain ⟨c, share, rewards, left, opens, settles, registered, claims, also, restarted, same, _⟩ :=
    succeeds.withdraws idle withdraws
  have rebalanced : c.lastRebalance = move.before.pool.lastRebalance := by
    rw [← level, ← Pool.books_lastRebalance, ← restarted, ← same]
    rfl
  have early : ¬ REBALANCE_PERIOD < move.label.env.timestamp - move.before.pool.lastRebalance := by
    intro due
    rw [← settles, Books.checkpoint_due due] at rebalanced
    have moved : move.label.env.timestamp = move.before.pool.lastRebalance := rebalanced
    omega
  have unchanged : c = move.before.pool.books := by
    rw [← settles, Books.checkpoint_early early]
  have nothing : share = 0 := by
    rw [← claims, unchanged]
    rw [unchanged] at registered
    obtain ⟨empty, late | vacant⟩ := spent.2 rfl
    · exact (if_pos late).trans empty
    · exact absurd registered vacant
  rw [nothing] at also
  rw [pays.unique also]
  simp

/-- The moves pay the validator something. -/
def Pays (key : Word) (moves : List (Move (World B G) (Input B))) : Prop :=
  ∀ move ∈ moves, ∃ amount, amount ≠ 0 ∧ Rewards move key amount

section Count

omit [Bytes32 B] [DecidableEq B]

/-- The call moves the last rebalance. -/
def Rebalances (move : Move (World B G) (Input B)) : Prop :=
  move.after.pool.lastRebalance ≠ move.before.pool.lastRebalance

instance (move : Move (World B G) (Input B)) : Decidable (Rebalances move) := inferInstanceAs (Decidable (_ ≠ _))

/-- This is the number of calls that have moved the last rebalance. -/
def rebalances : List (Move (World B G) (Input B)) → ℕ
  | [] => 0
  | move :: rest => if Rebalances move then rebalances rest + 1 else rebalances rest

end Count

/-- A call moves the last rebalance only when the period is over. -/
theorem Succeeds.period {move : Move (World B G) (Input B)} (succeeds : Succeeds move)
    (idle : move.before.pool.status = G.notEntered) (rebalanced : Rebalances move) :
    move.before.pool.lastRebalance + (REBALANCE_PERIOD + 1) ≤ move.after.pool.lastRebalance := by
  obtain ⟨operation, carries⟩ := succeeds.carries idle
  rcases carries.parts.rebalance with level | ⟨due, moved⟩
  · exact absurd level rebalanced
  · rw [moved]
    omega

/-- Two rebalances lie more than a period apart. -/
theorem rebalances_periods {newer older : List (Move (World B G) (Input B))} {first : Move (World B G) (Input B)}
    {world : World B G} (run : Run Deployed Succeeds (newer ++ first :: older) world) :
    first.after.pool.lastRebalance + rebalances newer * (REBALANCE_PERIOD + 1) ≤ world.pool.lastRebalance := by
  induction newer generalizing world with
  | nil =>
      cases run with
      | next _ _ _ => simp [rebalances]
  | cons newest rest ih =>
      cases run with
      | next _ earlier succeeds =>
          have before := ih earlier
          rw [rebalances]
          split_ifs with rebalanced
          · have period := succeeds.period (run_idle earlier) rebalanced
            rw [Nat.succ_mul]
            omega
          · have level := not_not.mp rebalanced
            rwa [level]

/-- The rebalances cover the payments, with some payments in advance.  Behind the last payment that they cover the
validator is spent. -/
def Covered (advance : ℕ) (key : Word) (trace : List (Move (World B G) (Input B))) (world : World B G) : Prop :=
  ∀ paid, paid.Sublist trace → Pays key paid → paid.length ≤ rebalances trace + advance ∧
    (paid.length = rebalances trace + advance → world.pool.books.Spent world.pool.lastRebalance key)

/-- A call pays the validator only when a rebalance covers the payment. -/
theorem Covered.next {advance : ℕ} {key : Word} {older : List (Move (World B G) (Input B))}
    {move : Move (World B G) (Input B)} (covered : Covered advance key older move.before)
    (idle : move.before.pool.status = G.notEntered) (succeeds : Succeeds move) :
    Covered advance key (move :: older) move.after := by
  intro paid sub pays
  rw [rebalances]
  rcases List.sublist_cons_iff.mp sub with before | ⟨rest, rfl, before⟩
  · obtain ⟨enough, spent⟩ := covered paid before pays
    split_ifs with rebalanced
    · exact ⟨by omega, fun full => by omega⟩
    · refine ⟨enough, ?_⟩
      intro full
      rw [not_not.mp rebalanced]
      exact ((Books.spent_kept _ key).succeeds succeeds idle (spent full)).2
  · obtain ⟨enough, spent⟩ := covered rest before fun move member => pays move (.tail _ member)
    obtain ⟨amount, some, reward⟩ := pays move List.mem_cons_self
    have leaves := succeeds.leaves_spent idle (.inl reward.withdraws)
    rw [List.length_cons]
    split_ifs with rebalanced
    · exact ⟨by omega, fun _ => leaves⟩
    · have room : rest.length ≠ rebalances older + advance := by
        intro full
        exact some (succeeds.pays_nothing idle (spent full) (not_not.mp rebalanced) reward)
      exact ⟨by omega, fun _ => leaves⟩

theorem Covered.run {advance : ℕ} {key : Word} {newer older : List (Move (World B G) (Input B))}
    {first : Move (World B G) (Input B)} {world : World B G}
    (run : Run Deployed Succeeds (newer ++ first :: older) world) (covered : Covered advance key [] first.after) :
    Covered advance key newer world := by
  induction newer generalizing world with
  | nil =>
      cases run with
      | next _ _ _ => exact covered
  | cons newest rest ih =>
      cases run with
      | next _ earlier succeeds => exact (ih earlier).next (run_idle earlier) succeeds

/-- Between two points of a run a validator is paid at most once for each rebalance in between and once more,
and two rebalances lie more than 21 days apart.  From a withdrawal of the validator on, and from a point where it
has no record, the extra payment does not occur. -/
theorem payouts_spaced {newer older paid : List (Move (World B G) (Input B))}
    {first : Move (World B G) (Input B)} {world : World B G}
    (run : Run Deployed Succeeds (newer ++ first :: older) world) (key : Word) (sub : paid.Sublist newer)
    (pays : Pays key paid) :
    world.pool.lastRebalance ≤ world.now ∧
    first.after.pool.lastRebalance + rebalances newer * (REBALANCE_PERIOD + 1) ≤ world.pool.lastRebalance ∧
    paid.length ≤ rebalances newer + 1 ∧
    ((∃ timestamp, Withdraws first key timestamp) ∨ first.after.pool.validators key = .unset →
      paid.length ≤ rebalances newer) := by
  obtain ⟨succeeds, before⟩ := run.split
  refine ⟨run_clock run, rebalances_periods run, ?_, ?_⟩
  · have covered : Covered 1 key [] first.after := by
      intro taken none _
      rw [List.sublist_nil.mp none]
      exact ⟨Nat.zero_le _, nofun⟩
    exact (covered.run run paid sub pays).1
  · intro gone
    have covered : Covered 0 key [] first.after := by
      intro taken none _
      rw [List.sublist_nil.mp none]
      exact ⟨Nat.zero_le _, fun _ => succeeds.leaves_spent (run_idle before) gone⟩
    exact (covered.run run paid sub pays).1

namespace Sample

/-- The latecomer withdraws again at the second rebalance. -/
def claimLate : Input Term := withdraw 1703629000 1703629000 6

theorem claimedLate_run : Run Deployed Succeeds
    ([claimedEarly.move claimLate] ++ joinedLate.move claimEarly :: [settled.move joinLate, joined.move settle,
      SampleWorld.deployed.move join]) (claimedEarly.next claimLate) :=
  World.run_move claimLate ((@Run.split _ _ _ _ _ [] _ _ credited_run).2.weaken fun _ steps => steps.1)
    (World.move_succeeds (by decide +kernel))

end Sample

/-- A rebalance lies between the two withdrawals of the latecomer, and it covers the payment of the second one. -/
theorem claimedLate_spaced : Pays 6 [Sample.claimedEarly.move Sample.claimLate] ∧
    [Sample.claimedEarly.move Sample.claimLate].length ≤ rebalances [Sample.claimedEarly.move Sample.claimLate] := by
  have pays : Pays 6 [Sample.claimedEarly.move Sample.claimLate] := by
    intro move member
    obtain rfl := List.mem_singleton.mp member
    exact ⟨333345580805761211, by decide, _, _, _, rfl, by decide +kernel⟩
  exact ⟨pays, (payouts_spaced Sample.claimedLate_run 6 (.refl _) pays).2.2.2 (.inl ⟨_, _, _, rfl⟩)⟩

end SmoothlyPool
