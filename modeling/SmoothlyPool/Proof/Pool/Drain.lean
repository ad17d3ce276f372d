import SmoothlyPool.Proof.Pool.Reward
import SmoothlyPool.Proof.Pool.Refine
import SmoothlyPool.Proof.Scenario
import SmoothlyPool.Library.ProRata

namespace SmoothlyPool

open Bytes32 Checked Pool Transition

variable {B : Type} {G : ReentrancyGuard}

/-- A withdrawal names its caller, its validator, and the proof of a block. -/
structure Withdrawal (B : Type) where
  env : Env B
  sender : Address
  sender_ne_zero : sender ≠ 0
  fresh : Bool
  indices : List ℕ
  proof : List B
  validatorIndex : Word
  timestamp : Uint64

namespace Withdrawal

/-- The recipient accepts the ETH and makes no call. -/
def call (withdrawal : Withdrawal B) : Call B :=
  .mk ⟨withdrawal.sender, withdrawal.sender_ne_zero, 0⟩
    (.withdraw withdrawal.indices withdrawal.proof withdrawal.validatorIndex withdrawal.timestamp) true []

/-- This is the share that the validator can claim. -/
def share (s : Pool B G) (withdrawal : Withdrawal B) : ℕ :=
  (s.validators withdrawal.validatorIndex).claimable s.lastRebalance

variable [Bytes32 B] [DecidableEq B]

def execute (withdrawal : Withdrawal B) (s : Pool B G) : Except Revert (Pool B G) :=
  withdrawal.call.execute withdrawal.env (s.begin withdrawal.fresh)

def reward (withdrawal : Withdrawal B) (s : Pool B G) : Except Revert ℕ :=
  ((s.begin withdrawal.fresh).receive withdrawal.call.msg).reward withdrawal.env
    (withdrawal.call.callback withdrawal.env) withdrawal.indices withdrawal.proof withdrawal.validatorIndex
    withdrawal.timestamp

/-- The pool accepts the proof for a registered validator, and no rebalance takes effect. -/
structure Accepted (s : Pool B G) (withdrawal : Withdrawal B) : Prop where
  registered : (s.validators withdrawal.validatorIndex).Registered
  recent : (s.validators withdrawal.validatorIndex).start ≤ withdrawal.timestamp.toNat
  ordered : s.lastRebalance ≤ withdrawal.env.timestamp
  early : withdrawal.env.timestamp - s.lastRebalance ≤ REBALANCE_PERIOD
  verified : (BeaconOracle.verifyFeeRecipient withdrawal.env withdrawal.indices withdrawal.proof
    withdrawal.validatorIndex s.self withdrawal.timestamp (s.begin withdrawal.fresh).transient).isOk = true

instance (s : Pool B G) (withdrawal : Withdrawal B) : Decidable (withdrawal.Accepted s) :=
  decidable_of_iff
    ((s.validators withdrawal.validatorIndex).Registered ∧
      (s.validators withdrawal.validatorIndex).start ≤ withdrawal.timestamp.toNat ∧
      s.lastRebalance ≤ withdrawal.env.timestamp ∧
      withdrawal.env.timestamp - s.lastRebalance ≤ REBALANCE_PERIOD ∧
      (BeaconOracle.verifyFeeRecipient withdrawal.env withdrawal.indices withdrawal.proof
        withdrawal.validatorIndex s.self withdrawal.timestamp (s.begin withdrawal.fresh).transient).isOk = true)
    ⟨fun ⟨registered, recent, ordered, early, verified⟩ => ⟨registered, recent, ordered, early, verified⟩,
      fun ⟨registered, recent, ordered, early, verified⟩ => ⟨registered, recent, ordered, early, verified⟩⟩

end Withdrawal

section Queue

variable [Bytes32 B] [DecidableEq B]

/-- The validators withdraw in the order of the list. -/
def withdrawAll : List (Withdrawal B) → Pool B G → Except Revert (List ℕ × Pool B G)
  | [], s => .ok ([], s)
  | withdrawal :: rest, s => do
      let eth ← withdrawal.reward s
      let s ← withdrawal.execute s
      let (payouts, s) ← withdrawAll rest s
      .ok (eth :: payouts, s)

/-- Each proof is accepted when its turn comes. -/
def Accepted : List (Withdrawal B) → Pool B G → Prop
  | [], _ => True
  | withdrawal :: rest, s =>
      withdrawal.Accepted s ∧ ∀ after, withdrawal.execute s = .ok after → Accepted rest after

instance decidableAccepted : (batch : List (Withdrawal B)) → (s : Pool B G) → Decidable (Accepted batch s)
  | [], _ => .isTrue trivial
  | withdrawal :: rest, s =>
      have (after : Pool B G) : Decidable (Accepted rest after) := decidableAccepted rest after
      inferInstanceAs (Decidable (withdrawal.Accepted s ∧
        ∀ after, withdrawal.execute s = .ok after → Accepted rest after))

/-- These validators can withdraw one after another from a pool with the given rewards. -/
structure Queue (total : ℕ) (batch : List (Withdrawal B)) (s : Pool B G) : Prop where
  idle : s.status = G.notEntered
  rewards : s.totalETH = .ok total
  distinct : (batch.map Withdrawal.validatorIndex).Nodup
  positive : ∀ withdrawal ∈ batch, 0 < withdrawal.share s
  covered : (batch.map (Withdrawal.share s)).sum ≤ s.smooths
  scaled : ∀ withdrawal ∈ batch, withdrawal.share s * BPS < 2 ^ 256
  bounded : BPS * total < 2 ^ 256
  accepted : Accepted batch s

instance [DecidableEq G.Status] (total : ℕ) (batch : List (Withdrawal B)) (s : Pool B G) :
    Decidable (Queue total batch s) :=
  decidable_of_iff
    (s.status = G.notEntered ∧ s.totalETH = .ok total ∧ (batch.map Withdrawal.validatorIndex).Nodup ∧
      (∀ withdrawal ∈ batch, 0 < withdrawal.share s) ∧ (batch.map (Withdrawal.share s)).sum ≤ s.smooths ∧
      (∀ withdrawal ∈ batch, withdrawal.share s * BPS < 2 ^ 256) ∧ BPS * total < 2 ^ 256 ∧ Accepted batch s)
    ⟨fun ⟨idle, rewards, distinct, positive, covered, scaled, bounded, accepted⟩ =>
        ⟨idle, rewards, distinct, positive, covered, scaled, bounded, accepted⟩,
      fun ⟨idle, rewards, distinct, positive, covered, scaled, bounded, accepted⟩ =>
        ⟨idle, rewards, distinct, positive, covered, scaled, bounded, accepted⟩⟩

end Queue

/-- This is what a withdrawal of the amount leaves behind. -/
structure Leaves (s : Pool B G) (withdrawal : Withdrawal B) (amount : ℕ) (after : Pool B G) : Prop where
  idle : after.status = G.notEntered
  self : after.self = s.self
  level : after.lastRebalance = s.lastRebalance
  smooths : after.smooths = s.smooths - withdrawal.share s
  rewards : ∀ total, s.totalETH = .ok total → after.totalETH = .ok (total - amount)
  others : ∀ key, key ≠ withdrawal.validatorIndex → after.validators key = s.validators key

/-- The other validators keep their shares. -/
theorem Leaves.share {withdrawal other : Withdrawal B} {amount : ℕ} {s after : Pool B G}
    (leaves : Leaves s withdrawal amount after)
    (different : other.validatorIndex ≠ withdrawal.validatorIndex) : other.share after = other.share s := by
  rw [Withdrawal.share, leaves.others _ different, leaves.level]
  rfl

/-- No payment comes back to the pool. -/
def Outgoing (batch : List (Withdrawal B)) (s : Pool B G) : Prop :=
  ∀ withdrawal ∈ batch, (s.validators withdrawal.validatorIndex).withdrawal ≠ s.self

theorem share_listed (s : Pool B G) {batch : List (Withdrawal B)} {withdrawal : Withdrawal B} {place : ℕ}
    (listed : batch[place]? = some withdrawal) :
    (batch.map (Withdrawal.share s))[place]? = some (withdrawal.share s) := by
  rw [List.getElem?_map, listed, Option.map_some]

/-- The order of a queue does not matter for where its payments go. -/
theorem Outgoing.perm {batch others : List (Withdrawal B)} {s : Pool B G} (outgoing : Outgoing batch s)
    (same : (others.map Withdrawal.validatorIndex).Perm (batch.map Withdrawal.validatorIndex)) :
    Outgoing others s := by
  intro other member
  obtain ⟨withdrawal, listed, key⟩ := List.mem_map.mp (same.mem_iff.mp (List.mem_map_of_mem member))
  rw [← key]
  exact outgoing withdrawal listed

/-- `_withdraw` pays the pro-rata claim while nothing overflows. -/
theorem internalWithdraw_of_covered {callback : Callback B G} {validator : Validator} {s paid : Pool B G}
    {total : ℕ} (idle : s.status = G.notEntered) (rewards : s.totalETH = .ok total) (enabled : s.smooths ≠ 0)
    (enough : validator.claimable s.lastRebalance ≤ s.smooths)
    (scaled : validator.claimable s.lastRebalance * BPS < 2 ^ 256) (bounded : BPS * total < 2 ^ 256)
    (sent : sendEther callback validator.withdrawal
      (ProRata.payout BPS (validator.claimable s.lastRebalance) s.smooths total)
      ({ s.consume (validator.claimable s.lastRebalance) with status := G.entered } : Pool B G) = .ok paid) :
    internalWithdraw callback validator s =
      .ok (ProRata.payout BPS (validator.claimable s.lastRebalance) s.smooths total,
        nonReentrantAfter paid) := by
  have fits : validator.claimable s.lastRebalance < 2 ^ 256 :=
    (Nat.le_mul_of_pos_right _ (by norm_num [BPS])).trans_lt scaled
  have part : validator.claimable s.lastRebalance * BPS / s.smooths ≤ BPS := ProRata.part_le enough
  have product : validator.claimable s.lastRebalance * BPS / s.smooths * total < 2 ^ 256 :=
    (Nat.mul_le_mul_right total part).trans_lt bounded
  have opens := nonReentrantBefore_idle idle
  have claimed : claimedShare validator { s with status := G.entered } =
      .ok (validator.claimable s.lastRebalance) := claimedShare_of_lt fits
  have funds : totalETH ({ s with status := G.entered } : Pool B G) = .ok total := rewards
  have scale : BPS ≠ 0 := by norm_num [BPS]
  apply bind_of_ok opens
  apply bind_of_ok (require_ok enabled)
  apply bind_of_ok claimed
  apply bind_of_ok (mul_ok scaled)
  apply bind_of_ok (div_ok enabled)
  apply bind_of_ok funds
  apply bind_of_ok (mul_ok product)
  apply bind_of_ok (div_ok scale)
  apply bind_of_ok (sub_ok enough)
  exact bind_of_ok sent rfl

/-- This is the pool after the withdrawal has paid the amount. -/
def Withdrawal.pay (withdrawal : Withdrawal B) (amount : ℕ) (map : HashMap B) (s : Pool B G) : Pool B G :=
  (nonReentrantAfter { ({ s with transient := map } : Pool B G).consume (withdrawal.share s) with
    status := G.entered
    balance := s.balance - amount }).restart withdrawal.validatorIndex

theorem Withdrawal.pay_leaves (withdrawal : Withdrawal B) {s : Pool B G} {total amount : ℕ} (map : HashMap B)
    (rewards : s.totalETH = .ok total) (inside : amount ≤ total) :
    Leaves s withdrawal amount (withdrawal.pay amount map s) := by
  obtain ⟨solvent, whole⟩ := totalETH_eq_ok.mp rewards
  refine ⟨G.after_entered, rfl, rfl, rfl, ?_, ?_⟩
  · intro other same
    obtain rfl := Except.ok.inj (rewards.symm.trans same)
    have paid : (withdrawal.pay amount map s).balance = s.balance - amount := rfl
    have bonds : (withdrawal.pay amount map s).totalBond = s.totalBond := rfl
    rw [totalETH_eq_ok, paid, bonds]
    omega
  · intro key different
    exact Function.update_of_ne different ..

variable [Bytes32 B] [DecidableEq B]

/-- A payment to another account goes through, and its recipient calls nothing. -/
theorem Withdrawal.sendEther_outgoing (withdrawal : Withdrawal B) {recipient : Address} {amount : ℕ}
    {s : Pool B G} (outgoing : recipient ≠ s.self) (affordable : amount ≤ s.balance) :
    sendEther (withdrawal.call.callback withdrawal.env) recipient amount s =
      .ok { s with balance := s.balance - amount } := by
  refine sendEther_eq_ok.mpr ⟨affordable, ?_⟩
  rw [if_neg outgoing]
  rfl

/-- A withdrawal with an accepted proof pays the pro-rata claim. -/
theorem Withdrawal.Accepted.succeeds {withdrawal : Withdrawal B} {s : Pool B G} {total : ℕ}
    (accepted : withdrawal.Accepted s) (idle : s.status = G.notEntered) (rewards : s.totalETH = .ok total)
    (funded : 0 < total) (positive : 0 < withdrawal.share s) (enough : withdrawal.share s ≤ s.smooths)
    (scaled : withdrawal.share s * BPS < 2 ^ 256) (bounded : BPS * total < 2 ^ 256)
    (outgoing : (s.validators withdrawal.validatorIndex).withdrawal ≠ s.self) :
    ∃ after, withdrawal.reward s = .ok (ProRata.payout BPS (withdrawal.share s) s.smooths total) ∧
      withdrawal.execute s = .ok after ∧
      Leaves s withdrawal (ProRata.payout BPS (withdrawal.share s) s.smooths total) after := by
  obtain ⟨registered, recent, ordered, early, verified⟩ := accepted
  obtain ⟨⟨shown, map⟩, verified⟩ := eq_ok_of_isOk verified
  obtain ⟨solvent, whole⟩ := totalETH_eq_ok.mp rewards
  obtain ⟨old, begun⟩ := s.begin_eq withdrawal.fresh
  rw [begun] at verified
  have inside : ProRata.payout BPS (withdrawal.share s) s.smooths total ≤ total := ProRata.payout_le enough
  have level : internalRebalance withdrawal.env.timestamp ({ s with transient := old } : Pool B G) =
      .ok { s with transient := old } := internalRebalance_early ordered early
  have affordable : ProRata.payout BPS (withdrawal.share s) s.smooths total ≤ s.balance := by omega
  have enabled : s.smooths ≠ 0 := (positive.trans_le enough).ne'
  have pays := internalWithdraw_of_covered (s := { s with transient := map }) idle rewards enabled enough
    scaled bounded (withdrawal.sendEther_outgoing outgoing affordable)
  refine ⟨withdrawal.pay _ map s, ?_, ?_, withdrawal.pay_leaves map rewards inside⟩
  · rw [reward, begun]
    exact reward_of_steps level verified pays
  · rw [execute, begun, Call.execute_eq]
    exact withdraw_of_steps rfl level registered recent rewards funded.ne' verified pays

section Queue

variable {total : ℕ} {batch : List (Withdrawal B)} {withdrawal : Withdrawal B} {s after : Pool B G}

/-- The first validator of a queue is none of the others. -/
theorem Queue.different (queue : Queue total (withdrawal :: batch) s) {other : Withdrawal B}
    (member : other ∈ batch) : other.validatorIndex ≠ withdrawal.validatorIndex := by
  intro same
  have fresh := (List.nodup_cons.mp queue.distinct).1
  rw [← same] at fresh
  exact fresh (List.mem_map_of_mem member)

theorem Queue.shares (queue : Queue total (withdrawal :: batch) s) {amount : ℕ}
    (leaves : Leaves s withdrawal amount after) :
    batch.map (Withdrawal.share after) = batch.map (Withdrawal.share s) :=
  List.map_congr_left fun _ member => leaves.share (queue.different member)

theorem Queue.shares_pos (queue : Queue total batch s) :
    ∀ share ∈ batch.map (Withdrawal.share s), 0 < share := by
  intro share member
  obtain ⟨withdrawal, listed, rfl⟩ := List.mem_map.mp member
  exact queue.positive withdrawal listed

/-- A queue with more than one validator leaves shares behind the first one. -/
theorem Queue.rest_positive (queue : Queue total (withdrawal :: batch) s) (members : batch ≠ []) :
    0 < (batch.map (Withdrawal.share s)).sum := by
  have shares : batch.map (Withdrawal.share s) ≠ [] := by simpa using members
  exact List.sum_pos _ (fun share member => queue.shares_pos share (.tail _ member)) shares

/-- The others can withdraw from what the first validator leaves. -/
theorem Queue.rest (queue : Queue total (withdrawal :: batch) s) {amount : ℕ}
    (leaves : Leaves s withdrawal amount after) (executes : withdrawal.execute s = .ok after) :
    Queue (total - amount) batch after where
  idle := leaves.idle
  rewards := leaves.rewards total queue.rewards
  distinct := (List.nodup_cons.mp queue.distinct).2
  positive other member := by
    rw [leaves.share (queue.different member)]
    exact queue.positive other (.tail withdrawal member)
  covered := by
    rw [queue.shares leaves, leaves.smooths]
    exact ProRata.covered_rest queue.covered
  scaled other member := by
    rw [leaves.share (queue.different member)]
    exact queue.scaled other (.tail withdrawal member)
  bounded := (Nat.mul_le_mul_left BPS (Nat.sub_le total amount)).trans_lt queue.bounded
  accepted := queue.accepted.2 after executes

theorem Outgoing.rest (queue : Queue total (withdrawal :: batch) s) {amount : ℕ}
    (leaves : Leaves s withdrawal amount after) (outgoing : Outgoing (withdrawal :: batch) s) :
    Outgoing batch after := by
  intro other member
  rw [leaves.others _ (queue.different member), leaves.self]
  exact outgoing other (.tail withdrawal member)

/-- Every withdrawal of a queue succeeds, and the payouts are the pro-rata claims. -/
theorem Queue.pays (queue : Queue total batch s) (outgoing : Outgoing batch s)
    (funded : batch ≠ [] → 0 < total) :
    ∃ after, withdrawAll batch s =
        .ok (ProRata.payouts BPS s.smooths total (batch.map (Withdrawal.share s)), after) ∧
      after.smooths = s.smooths - (batch.map (Withdrawal.share s)).sum ∧
      after.totalETH =
        .ok (total - (ProRata.payouts BPS s.smooths total (batch.map (Withdrawal.share s))).sum) := by
  induction batch generalizing s total with
  | nil => exact ⟨s, rfl, rfl, queue.rewards⟩
  | cons withdrawal rest ih =>
      have positive := queue.positive withdrawal List.mem_cons_self
      have covered := queue.covered
      rw [List.map_cons, List.sum_cons] at covered
      obtain ⟨after, pays, executes, leaves⟩ := queue.accepted.1.succeeds queue.idle queue.rewards
        (funded (List.cons_ne_nil withdrawal rest)) positive (by omega)
        (queue.scaled withdrawal List.mem_cons_self) queue.bounded (outgoing withdrawal List.mem_cons_self)
      have later : rest ≠ [] → 0 < total - ProRata.payout BPS (withdrawal.share s) s.smooths total := by
        intro members
        have behind := queue.rest_positive members
        exact Nat.sub_pos_of_lt (ProRata.payout_lt (by norm_num [BPS]) (by omega) (funded (by simp)))
      obtain ⟨final, paysRest, smooths, funds⟩ :=
        ih (queue.rest leaves executes) (outgoing.rest queue leaves) later
      rw [queue.shares leaves, leaves.smooths] at paysRest smooths funds
      refine ⟨final, ?_, ?_, ?_⟩
      · rw [withdrawAll, pays, ok_bind, executes, ok_bind, paysRest]
        rfl
      · rw [smooths, List.map_cons, List.sum_cons, Nat.sub_sub]
      · rw [funds, List.map_cons, ProRata.payouts, List.sum_cons, Nat.sub_sub]

/-- The queue empties the pool. -/
def Drains (total : ℕ) (batch : List (Withdrawal B)) (s : Pool B G) : Prop :=
  ∃ payouts after, withdrawAll batch s = .ok (payouts, after) ∧ payouts.length = batch.length ∧
    payouts.sum = total ∧ after.smooths = 0 ∧ after.totalETH = .ok 0

/-- Validators that hold all of `smooths` take exactly the rewards, in whatever order they withdraw. -/
theorem queue_drains (queue : Queue total batch s) (funded : 0 < total) (members : batch ≠ [])
    (outgoing : Outgoing batch s) (whole : (batch.map (Withdrawal.share s)).sum = s.smooths) :
    Drains total batch s := by
  obtain ⟨after, pays, smooths, funds⟩ := queue.pays outgoing fun _ => funded
  have taken : (ProRata.payouts BPS s.smooths total (batch.map (Withdrawal.share s))).sum = total := by
    have shares : batch.map (Withdrawal.share s) ≠ [] := by simpa using members
    exact ProRata.sum_payouts (by norm_num [BPS]) shares queue.shares_pos whole
  rw [whole, Nat.sub_self] at smooths
  rw [taken, Nat.sub_self] at funds
  exact ⟨_, after, pays, by rw [ProRata.length_payouts, List.length_map], taken, smooths, funds⟩

end Queue

namespace Sample

/-- The validator withdraws with a proof of the block before. -/
def withdrawal (time : Uint64) (key : Word) : Withdrawal Term where
  env := .answering time time (blockRoot key 0xabc)
  sender := 0xdef
  sender_ne_zero := owner_ne_zero
  fresh := true
  indices := [9, 6433]
  proof := List.replicate 13 zero
  validatorIndex := key
  timestamp := time

def queue : List (Withdrawal Term) := [withdrawal 1701814600 5, withdrawal 1701814700 6]

theorem queue_ready : Queue (10 ^ 18) queue settledBoth.pool := by decide +kernel

theorem queue_outgoing : Outgoing queue settledBoth.pool := by
  unfold Outgoing
  decide +kernel

/-- The withdrawal address of the validator 5 is the pool. -/
def joinSelf : Input Term := register 1700000100 1700000100 5
  { BeaconChainValidator.sample 32000000000 1000000 with withdrawalCredentials := 1#256 <<< 248 ||| 0xabc }

@[irreducible] def settledSelf : SampleWorld :=
  ((SampleWorld.deployed.next joinSelf).next joinToo).next settle

theorem self_ready : Queue (10 ^ 18) queue settledSelf.pool := by decide +kernel

/-- The first payout comes back, so the second one takes it again. -/
theorem self_payouts : (withdrawAll queue settledSelf.pool).map Prod.fst =
    .ok [500013779039325378, 1000000000000000000] := by decide +kernel

end Sample

/-- The queue of two validators empties the pool. -/
theorem settledBoth_drained : Drains (10 ^ 18) Sample.queue Sample.settledBoth.pool :=
  queue_drains Sample.queue_ready (by decide) (by decide) Sample.queue_outgoing (by decide +kernel)

/-- Nobody takes the rewards of a pool without members, and a payout to the pool itself stays there. -/
theorem rewards_stay :
    (Queue (10 ^ 18) [] SampleWorld.deployed.pool ∧
      (([] : List (Withdrawal Term)).map (Withdrawal.share SampleWorld.deployed.pool)).sum =
        SampleWorld.deployed.pool.smooths ∧
      ¬ Drains (10 ^ 18) [] SampleWorld.deployed.pool) ∧
    (Queue (10 ^ 18) Sample.queue Sample.settledSelf.pool ∧
      (Sample.queue.map (Withdrawal.share Sample.settledSelf.pool)).sum = Sample.settledSelf.pool.smooths ∧
      ¬ Drains (10 ^ 18) Sample.queue Sample.settledSelf.pool) := by
  refine ⟨⟨?_, rfl, ?_⟩, Sample.self_ready, by decide +kernel, ?_⟩
  · decide +kernel
  · rintro ⟨payouts, after, success, length, total, _⟩
    obtain rfl := List.eq_nil_of_length_eq_zero length
    exact absurd total (by decide)
  · rintro ⟨payouts, after, success, _, total, _⟩
    have paid := Sample.self_payouts
    rw [success] at paid
    obtain rfl := Except.ok.inj paid
    exact absurd total (by decide)

section Queue

variable {total : ℕ} {batch : List (Withdrawal B)} {s : Pool B G}

/-- Each payout is the exact part of the rewards, up to the roundings of the withdrawals so far. -/
def Fair (total : ℕ) (batch : List (Withdrawal B)) (s : Pool B G) (payouts : List ℕ) : Prop :=
  ∀ (place : ℕ) (withdrawal : Withdrawal B) (eth : ℕ), batch[place]? = some withdrawal →
    payouts[place]? = some eth →
    (withdrawal.share s : ℚ) * total / s.smooths - ((total : ℚ) / BPS + 1) < eth ∧
    (eth : ℚ) ≤ withdrawal.share s * total / s.smooths + place * ((total : ℚ) / BPS + 1)

/-- The place in the queue matters by at most the roundings, and so does the order of the queue. -/
theorem queue_fair (queue : Queue total batch s) (funded : 0 < total) (outgoing : Outgoing batch s) :
    ∃ payouts after, withdrawAll batch s = .ok (payouts, after) ∧ payouts.length = batch.length ∧
      Fair total batch s payouts ∧
      ∀ others paid final, Queue total others s →
        (others.map Withdrawal.validatorIndex).Perm (batch.map Withdrawal.validatorIndex) →
        withdrawAll others s = .ok (paid, final) →
        ∀ (place turn : ℕ) (withdrawal other : Withdrawal B) (eth amount : ℕ),
          batch[place]? = some withdrawal → others[turn]? = some other →
          other.validatorIndex = withdrawal.validatorIndex →
          payouts[place]? = some eth → paid[turn]? = some amount →
          |(eth : ℚ) - amount| ≤ batch.length * ((total : ℚ) / BPS + 1) := by
  have scale : 0 < BPS := by norm_num [BPS]
  obtain ⟨after, pays, _, _⟩ := queue.pays outgoing fun _ => funded
  refine ⟨_, after, pays, by rw [ProRata.length_payouts, List.length_map], ?_, ?_⟩
  · intro place withdrawal eth listed paid
    exact ⟨ProRata.exact_lt_payouts scale queue.covered queue.shares_pos (share_listed s listed) paid,
      ProRata.payouts_le_exact scale queue.covered queue.shares_pos (share_listed s listed) paid⟩
  · intro others paid final queued same success place turn withdrawal other eth amount listed listedOther key
      first second
    obtain ⟨last, paysOthers, _, _⟩ := queued.pays (outgoing.perm same) fun _ => funded
    obtain ⟨rfl, _⟩ := Prod.mk.inj (Except.ok.inj (success.symm.trans paysOthers))
    have length : (others.map (Withdrawal.share s)).length = (batch.map (Withdrawal.share s)).length := by
      simpa using same.length_eq
    have asked : (others.map (Withdrawal.share s))[turn]? = some (withdrawal.share s) := by
      rw [share_listed s listedOther, Withdrawal.share, key]
      rfl
    have distance := ProRata.payouts_distance_le scale queue.covered queue.shares_pos queued.covered
      queued.shares_pos length (share_listed s listed) asked first second
    rwa [List.length_map] at distance

end Queue

namespace Sample

def otherQueue : List (Withdrawal Term) := [withdrawal 1701814600 6, withdrawal 1701814700 5]

theorem otherQueue_ready : Queue (10 ^ 18) otherQueue settledBoth.pool := by decide +kernel

end Sample

/-- The validator 5 gets one wei more when it comes second. -/
theorem bothOrders_fair :
    Fair (10 ^ 18) Sample.queue Sample.settledBoth.pool [500013779039325378, 499986220960674622] ∧
    |((500013779039325378 : ℕ) : ℚ) - (500013779039325379 : ℕ)| ≤ 2 * (((10 ^ 18 : ℕ) : ℚ) / BPS + 1) := by
  obtain ⟨payouts, after, success, _, fair, close⟩ :=
    queue_fair Sample.queue_ready (by decide) Sample.queue_outgoing
  have paid : (withdrawAll Sample.queue Sample.settledBoth.pool).map Prod.fst =
      .ok [500013779039325378, 499986220960674622] := by decide +kernel
  have paidOther : (withdrawAll Sample.otherQueue Sample.settledBoth.pool).map Prod.fst =
      .ok [499986220960674621, 500013779039325379] := by decide +kernel
  cases other : withdrawAll Sample.otherQueue Sample.settledBoth.pool with
  | error failure =>
      rw [other] at paidOther
      cases paidOther
  | ok result =>
      rw [other] at paidOther
      rw [success] at paid
      obtain rfl := Except.ok.inj paid
      obtain ⟨amounts, final⟩ := result
      obtain rfl := Except.ok.inj paidOther
      exact ⟨fair, close _ _ final Sample.otherQueue_ready (by decide) other 0 1 _ _ _ _ rfl rfl rfl rfl rfl⟩

/-- A payout that comes back to the pool is paid a second time. -/
theorem self_unfair : Queue (10 ^ 18) Sample.queue Sample.settledSelf.pool ∧
    ¬ ∃ payouts after, withdrawAll Sample.queue Sample.settledSelf.pool = .ok (payouts, after) ∧
      Fair (10 ^ 18) Sample.queue Sample.settledSelf.pool payouts := by
  refine ⟨Sample.self_ready, ?_⟩
  rintro ⟨payouts, after, success, fair⟩
  have paid := Sample.self_payouts
  rw [success] at paid
  obtain rfl := Except.ok.inj paid
  have above := (fair 1 _ _ rfl rfl).2
  have share : (Sample.withdrawal 1701814700 6).share Sample.settledSelf.pool = 58057600000000000 := by
    decide +kernel
  have smooths : Sample.settledSelf.pool.smooths = 116118400000000000 := by decide +kernel
  rw [share, smooths] at above
  norm_num [BPS] at above

end SmoothlyPool
