import SmoothlyPool.Proof.Pool.Window
import SmoothlyPool.Construction.Runs

namespace SmoothlyPool

open Checked Pool Transition

variable {B : Type} {G : ReentrancyGuard}

/-- Behind the head of a function a mild effect leaves `smooths` and the last rebalance alone. -/
theorem Effect.steady {timestamp : ℕ} {msg : Msg} {callback : Callback B G} {s r : Pool B G}
    {operation : Books.Operation} (effect : Effect timestamp msg callback s operation r)
    (mild : operation.Mild) (inside : timestamp - s.lastRebalance ≤ REBALANCE_PERIOD) :
    r.smooths = s.smooths ∧ r.lastRebalance = s.lastRebalance := by
  have early : s.books.checkpoint timestamp = s.books := Books.checkpoint_early (Nat.not_lt_of_le inside)
  cases effect with
  | hold => exact ⟨rfl, rfl⟩
  | settle opens =>
      rw [checkpoint, early]
      exact ⟨rfl, rfl⟩
  | enrol opens bonded action =>
      rw [early] at action
      cases action with
      | enrol vacant narrow genesis inside => exact ⟨rfl, rfl⟩
  | bank opens action =>
      rw [early] at action
      cases action with
      | bank registered settled covered inside => exact ⟨rfl, rfl⟩
  | claim map opens settles registered shared enough solvent priced sent => exact absurd rfl (mild _).1
  | leave map opens settles present releasable bonded sent => exact absurd rfl (mild _).2

/-- A withdrawal needs shares in the pool. -/
theorem Pool.internalWithdraw_enabled {callback : Callback B G} {validator : Validator} {s : Pool B G}
    {result : ℕ × Pool B G} (success : internalWithdraw callback validator s = .ok result) : s.smooths ≠ 0 := by
  simp only [internalWithdraw, bind_eq_ok, nonReentrantBefore_eq_ok, require_eq_ok] at success
  obtain ⟨_, ⟨status, _, rfl⟩, _, enabled, _⟩ := success
  exact enabled

variable [Bytes32 B] [DecidableEq B]

/-- The calls of a recipient leave `smooths` and the last rebalance alone. -/
theorem executeAll_steady {env : Env B} {s : Pool B G} (calls : List (Call B)) (locked : s.status = G.entered)
    (inside : env.timestamp - s.lastRebalance ≤ REBALANCE_PERIOD) :
    (executeAll env calls s).smooths = s.smooths ∧
    (executeAll env calls s).lastRebalance = s.lastRebalance := by
  refine (executeAll_invariant (fun r : Pool B G => r.status = G.entered ∧
    (r.smooths = s.smooths ∧ r.lastRebalance = s.lastRebalance)) calls s ?_ ⟨locked, rfl, rfl⟩).2
  rintro call _ r next ⟨closed, smooths, rebalanced⟩ success
  rw [Call.execute_eq] at success
  obtain ⟨operation, _, effect⟩ := dispatch_ok success
  have mild : operation.Mild := by
    apply effect.mild
    exact closed
  have still := effect.steady mild (by rwa [rebalanced])
  exact ⟨(effect.status mild).trans closed, still.1.trans smooths, still.2.trans rebalanced⟩

/-- This is the amount that a withdrawal pays out and reports in its event. -/
def Pool.reward (env : Env B) (callback : Callback B G) (indices : List ℕ) (proof : List B)
    (validatorIndex : Word) (timestamp : Uint64) (s : Pool B G) : Except Revert ℕ := do
  let s ← internalRebalance env.timestamp s
  let (_, map) ← BeaconOracle.verifyFeeRecipient env indices proof validatorIndex s.self timestamp s.transient
  let (eth, _) ← internalWithdraw callback (s.validators validatorIndex) { s with transient := map }
  .ok eth

section Steps

variable {env : Env B} {msg : Msg} {callback : Callback B G} {indices : List ℕ} {proof : List B} {key : Word}
  {timestamp : Uint64} {s c paid : Pool B G} {total eth : ℕ} {shown : Bool} {map : HashMap B}

theorem reward_of_steps (settles : internalRebalance env.timestamp s = .ok c)
    (verified : BeaconOracle.verifyFeeRecipient env indices proof key c.self timestamp c.transient = .ok (shown, map))
    (withdraws : internalWithdraw callback (c.validators key) { c with transient := map } = .ok (eth, paid)) :
    s.reward env callback indices proof key timestamp = .ok eth := by
  apply bind_of_ok settles
  apply bind_of_ok verified
  exact bind_of_ok withdraws rfl

/-- A withdrawal succeeds when all of its steps do. -/
theorem withdraw_of_steps (unpaid : msg.value = 0) (settles : internalRebalance env.timestamp s = .ok c)
    (registered : (c.validators key).Registered) (recent : (c.validators key).start ≤ timestamp.toNat)
    (rewards : c.totalETH = .ok total) (funded : total ≠ 0)
    (verified : BeaconOracle.verifyFeeRecipient env indices proof key c.self timestamp c.transient = .ok (shown, map))
    (withdraws : internalWithdraw callback (c.validators key) { c with transient := map } = .ok (eth, paid)) :
    s.withdraw env msg callback indices proof key timestamp = .ok (paid.restart key) := by
  have free : nonPayable msg = .ok () := require_ok unpaid
  apply bind_of_ok free
  apply bind_of_ok settles
  apply bind_of_ok (require_ok registered)
  apply bind_of_ok (require_ok (Nat.not_lt_of_le recent))
  apply bind_of_ok rewards
  apply bind_of_ok (require_ok funded)
  apply bind_of_ok verified
  exact bind_of_ok withdraws rfl

end Steps

/-- A successful withdrawal pays the reward for the claimable share. -/
theorem withdraw_reward {env : Env B} {msg : Msg} {callback : Callback B G} {indices : List ℕ}
    {proof : List B} {key : Word} {timestamp : Uint64} {s r : Pool B G}
    (success : s.withdraw env msg callback indices proof key timestamp = .ok r) :
    ∃ c map eth paid, s.books.Opens env.timestamp ∧ s.checkpoint env.timestamp = c ∧
      (c.validators key).Registered ∧ (c.validators key).start ≤ timestamp.toNat ∧
      s.reward env callback indices proof key timestamp = .ok eth ∧
      eth = (c.validators key).claimable c.lastRebalance * BPS / c.smooths * (c.balance - c.totalBond) / BPS ∧
      PaysOut callback (c.validators key).withdrawal eth { c with transient := map }
        (({ c with transient := map } : Pool B G).consume ((c.validators key).claimable c.lastRebalance)) paid ∧
      paid.restart key = r := by
  simp only [withdraw, nonPayable, bind_eq_ok, require_eq_ok] at success
  obtain ⟨_, _, c, settles, _, registered, _, recent, _, _, _, _, ⟨_, map⟩, verified, ⟨eth, paid⟩, withdraws,
    same⟩ := success
  obtain ⟨enough, solvent, priced, sent⟩ := internalWithdraw_ok withdraws
  obtain rfl := Except.ok.inj same
  have pays := reward_of_steps settles verified withdraws
  obtain ⟨opens, rfl⟩ := internalRebalance_eq_ok.mp settles
  exact ⟨_, map, eth, paid, opens, rfl, registered, Nat.le_of_not_lt recent, pays, priced, sent, rfl⟩

/-- The move withdraws for the validator with a proof for the block whose child has the timestamp. -/
def Withdraws (move : Move (World B G) (Input B)) (validatorIndex : Word) (timestamp : Uint64) : Prop :=
  ∃ indices proof, move.label.call.message = .withdraw indices proof validatorIndex timestamp

/-- The move is a withdrawal for the validator that pays the amount. -/
def Rewards (move : Move (World B G) (Input B)) (validatorIndex : Word) (amount : ℕ) : Prop :=
  ∃ indices proof timestamp, move.label.call.message = .withdraw indices proof validatorIndex timestamp ∧
    ((move.before.pool.begin move.label.fresh).receive move.label.call.msg).reward move.label.env
      (move.label.call.callback move.label.env) indices proof validatorIndex timestamp = .ok amount

end SmoothlyPool
