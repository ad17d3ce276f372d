import SmoothlyPool.Proof.Pool.Solvency
import SmoothlyPool.Proof.Pool.Shares

namespace SmoothlyPool

open Pool Transition

variable {B : Type} {G : ReentrancyGuard}

/-- This is the pool that `_exit` hands to the code of its recipient. -/
def Pool.handsOver (key : Word) (s : Pool B G) : Pool B G :=
  (s.release (s.validators key)).enter (s.balance - (s.validators key).bond)

section Conditions

variable [Bytes32 B] [DecidableEq B]

/-- No call of the list updates the validator to another effective balance, unless it reverts. -/
def Undisturbed (env : Env B) (key : Word) : List (Call B) → Pool B G → Prop
  | [], _ => True
  | call :: rest, s =>
      match call.execute env s with
      | .ok next =>
          (∀ validatorIndex validatorProof validator ts,
            call.message = .updateValidator validatorIndex validatorProof validator ts →
            validatorIndex.setWidth 256 = key →
            validator.effectiveBalance = (s.validators key).effectiveBalance) ∧
          Undisturbed env key rest next
      | .error _ => Undisturbed env key rest s

/-- A call that removes a validator is undisturbed when the recipient of the bond does not update
that validator to another effective balance.  The multiproof of a slashing may have written any map. -/
def RemovesUndisturbed (move : Move (World B G) (Input B)) : Prop :=
  ∀ key c map, Performs move.label.env move.label.call.message (.leave key) →
    internalRebalance move.label.env.timestamp
      ((move.before.pool.begin move.label.fresh).receive move.label.call.msg) = .ok c →
    Undisturbed move.label.env key move.label.call.reentry (handsOver key { c with transient := map })

end Conditions

namespace Books

/-- The aggregates miss the given balance of the registered validators. -/
def Misses (released : ℕ) (b : Books) : Prop :=
  b.totalEB + b.pendingEB + released = Ledger.total Validator.Registered Validator.balance b.validators

/-- A rebalance moves the pending balance and keeps the sum. -/
theorem Misses.checkpoint {timestamp released : ℕ} {b : Books} (misses : b.Misses released) :
    (b.checkpoint timestamp).Misses released := by
  by_cases due : REBALANCE_PERIOD < timestamp - b.lastRebalance
  · rw [checkpoint_due due]
    exact misses
  · rw [checkpoint_early due]
    exact misses

/-- A write exchanges the balance of one record. -/
theorem Misses.write {before after : ℕ} {b next : Books} (misses : b.Misses before) (key : Word)
    (record : Validator) (records : next.validators = Function.update b.validators key record)
    (sums : next.totalEB + next.pendingEB + after +
        (if (b.validators key).Registered then (b.validators key).balance else 0) =
      b.totalEB + b.pendingEB + before + if record.Registered then record.balance else 0) :
    next.Misses after := by
  have exchange := Ledger.total_update Validator.Registered Validator.balance b.validators key record
  unfold Misses at misses ⊢
  rw [records]
  omega

/-- A mild action changes the aggregates and the records alike. -/
theorem Misses.action {timestamp released : ℕ} {b next : Books} {operation : Operation}
    (misses : b.Misses released) (action : Action timestamp b operation next) (mild : operation.Mild)
    (positive : 0 < timestamp) : next.Misses released := by
  cases action with
  | settle => exact misses
  | @enrol key effectiveBalance withdrawal vacant narrow genesis inside =>
      have alive : ((b.validators key).enrol effectiveBalance withdrawal timestamp).Registered := positive.ne'
      apply misses.write key _ (enrol_validators ..)
      rw [if_neg vacant, if_pos alive]
      show b.totalEB + (b.pendingEB + effectiveBalance.toNat) + released + 0 =
        b.totalEB + b.pendingEB + released + effectiveBalance.toNat
      omega
  | @bank key effectiveBalance registered settled covered inside =>
      have alive : ((b.validators key).bank effectiveBalance timestamp).Registered := positive.ne'
      apply misses.write key _ (bank_validators ..)
      rw [if_pos registered, if_pos alive]
      show b.totalEB - (b.validators key).effectiveBalance.toNat + (b.pendingEB + effectiveBalance.toNat) +
          released + (b.validators key).effectiveBalance.toNat =
        b.totalEB + b.pendingEB + released + effectiveBalance.toNat
      omega
  | claim registered enough => exact absurd rfl (mild _).1
  | leave present releasable => exact absurd rfl (mild _).2

/-- A release takes the balance out before the record is deleted. -/
theorem Misses.release {b : Books} {validator : Validator} (misses : b.Misses 0)
    (releasable : b.Releasable validator) : (b.release validator).Misses validator.balance := by
  unfold Misses at misses ⊢
  rw [release_validators, ← misses]
  by_cases late : b.lastRebalance ≤ validator.start
  · have balance : validator.balance ≤ b.pendingEB := (releasable.pending late).1
    rw [release_pending late]
    show b.totalEB + (b.pendingEB - validator.balance) + validator.balance = b.totalEB + b.pendingEB + 0
    omega
  · have balance : validator.balance ≤ b.totalEB := releasable.settled late
    rw [release_settled late]
    show b.totalEB - validator.balance + b.pendingEB + validator.balance = b.totalEB + b.pendingEB + 0
    omega

/-- A restarted record keeps its balance. -/
theorem Misses.restart {released : ℕ} {b : Books} {key : Word} (misses : b.Misses released)
    (registered : (b.validators key).Registered) (positive : 0 < b.lastRebalance) :
    (b.restart key).Misses released := by
  have alive : ((b.validators key).restart b.lastRebalance).Registered := positive.ne'
  apply misses.write key ((b.validators key).restart b.lastRebalance) rfl
  rw [if_pos registered, if_pos alive]
  rfl

/-- The deleted record takes the missing balance away. -/
theorem Misses.remove {b : Books} {key : Word} (misses : b.Misses (b.validators key).balance)
    (registered : (b.validators key).Registered) : (b.remove key).Misses 0 := by
  have dead : ¬ Validator.unset.Registered := fun alive => alive rfl
  apply misses.write key .unset rfl
  rw [if_pos registered, if_neg dead]
  rfl

end Books

/-- A mild effect misses what the pool missed before. -/
theorem Effect.misses {timestamp released : ℕ} {msg : Msg} {callback : Callback B G} {s r : Pool B G}
    {operation : Books.Operation} (misses : s.books.Misses released)
    (effect : Effect timestamp msg callback s operation r) (mild : operation.Mild) :
    r.books.Misses released := by
  cases effect with
  | hold => exact misses
  | settle opens => exact misses.checkpoint
  | @enrol key effectiveBalance withdrawal next opens bonded action =>
      have positive : 0 < timestamp := by
        cases action with
        | enrol vacant narrow genesis inside => exact lt_of_lt_of_le (by decide) genesis
      exact misses.checkpoint.action action mild positive
  | @bank key effectiveBalance next opens action =>
      have positive : 0 < timestamp := by
        cases action with
        | bank registered settled covered inside =>
            exact (Nat.zero_le _).trans_lt
              (settled.trans_le (Books.checkpoint_lastRebalance_le opens.ordered).2)
      exact misses.checkpoint.action action mild positive
  | claim map opens settles registered shared enough solvent priced sent => exact absurd rfl (mild _).1
  | leave map opens settles present releasable bonded sent => exact absurd rfl (mild _).2

/-- A mild effect changes the balance of a registered validator only by banking its record. -/
theorem Effect.effectiveBalance {timestamp : ℕ} {msg : Msg} {callback : Callback B G} {s r : Pool B G}
    {operation : Books.Operation} {key : Word} (registered : (s.validators key).Registered)
    (effect : Effect timestamp msg callback s operation r) (mild : operation.Mild)
    (same : ∀ effectiveBalance, operation = .bank key effectiveBalance →
      effectiveBalance = (s.validators key).effectiveBalance) :
    (r.validators key).effectiveBalance = (s.validators key).effectiveBalance := by
  cases effect with
  | hold => rfl
  | settle opens => rw [checkpoint_validators]
  | @enrol other effectiveBalance withdrawal next opens bonded action =>
      cases action with
      | enrol vacant narrow genesis inside =>
          rw [Books.checkpoint_validators, books_validators] at vacant
          have distinct : key ≠ other := by
            rintro rfl
            exact vacant registered
          show (((s.books.checkpoint timestamp).enrol other effectiveBalance withdrawal
            timestamp).validators key).effectiveBalance = _
          rw [Books.enrol_validators, Function.update_of_ne distinct, Books.checkpoint_validators,
            books_validators]
  | @bank other effectiveBalance next opens action =>
      cases action with
      | bank registered settled covered inside =>
          show (((s.books.checkpoint timestamp).bank other effectiveBalance
            timestamp).validators key).effectiveBalance = _
          rw [Books.bank_validators]
          by_cases own : key = other
          · subst own
            rw [Function.update_self]
            exact same effectiveBalance rfl
          · rw [Function.update_of_ne own, Books.checkpoint_validators, books_validators]
  | claim map opens settles registered shared enough solvent priced sent => exact absurd rfl (mild _).1
  | leave map opens settles present releasable bonded sent => exact absurd rfl (mild _).2

section Windows

variable [Bytes32 B] [DecidableEq B]

/-- A call that succeeds inside a window has a mild effect. -/
theorem Held.inner {env : Env B} {released : ℕ} {key : Word} {call : Call B} {s r : Pool B G}
    (held : Held released key s) (success : call.execute env s = .ok r) :
    ∃ operation, Performs env call.message operation ∧ operation.Mild ∧
      Effect env.timestamp call.msg (call.callback env) (s.receive call.msg) operation r := by
  rw [Call.execute_eq] at success
  obtain ⟨operation, performs, effect⟩ := dispatch_ok success
  refine ⟨operation, performs, ?_, effect⟩
  apply effect.mild
  exact held.locked

/-- The aggregates miss the same balance when a window closes as when it opens. -/
theorem Held.misses {released missing : ℕ} {key : Word} {s : Pool B G}
    (held : Held released key s) (misses : s.books.Misses missing) (env : Env B)
    (calls : List (Call B)) : (executeAll env calls s).books.Misses missing := by
  refine (executeAll_invariant (fun s => Held released key s ∧ s.books.Misses missing) calls s ?_
    ⟨held, misses⟩).2
  rintro call _ s r ⟨held, misses⟩ success
  obtain ⟨operation, _, mild, effect⟩ := held.inner success
  refine ⟨held.execute success, ?_⟩
  apply effect.misses _ mild
  exact misses

/-- The balance of the validator survives an undisturbed window. -/
theorem Held.undisturbed {env : Env B} {released : ℕ} {key : Word} {s : Pool B G}
    (held : Held released key s) (calls : List (Call B)) (undisturbed : Undisturbed env key calls s) :
    ((executeAll env calls s).validators key).effectiveBalance = (s.validators key).effectiveBalance := by
  induction calls generalizing s with
  | nil => rfl
  | cons call rest ih =>
      rw [Undisturbed] at undisturbed
      rw [executeAll]
      cases result : call.execute env s with
      | error _ =>
          rw [result] at undisturbed
          exact ih held undisturbed
      | ok next =>
          rw [result] at undisturbed
          obtain ⟨alone, later⟩ := undisturbed
          obtain ⟨operation, performs, mild, effect⟩ := held.inner result
          have kept : (next.validators key).effectiveBalance = (s.validators key).effectiveBalance := by
            apply effect.effectiveBalance (s := s.receive call.msg) held.present mild
            rintro effectiveBalance rfl
            generalize asked : call.message = message at performs
            generalize target : Books.Operation.bank key effectiveBalance = operation at performs
            cases performs with
            | update active =>
                obtain ⟨same, balance⟩ := Books.Operation.bank.inj target
                rw [balance]
                exact alone _ _ _ _ asked same.symm
            | _ => cases target
          exact (ih (held.execute result) later).trans kept

/-- An undisturbed call on the idle pool keeps the total. -/
theorem Effect.whole {env : Env B} {call : Call B} {msg : Msg} {s r : Pool B G}
    {operation : Books.Operation} (idle : s.status = G.notEntered) (secure : s.Secure 0)
    (misses : s.books.Misses 0)
    (effect : Effect env.timestamp msg (call.callback env) s operation r)
    (undisturbed : ∀ key c map, operation = .leave key → internalRebalance env.timestamp s = .ok c →
      Undisturbed env key call.reentry (handsOver key { c with transient := map })) :
    r.books.Misses 0 := by
  by_cases mild : operation.Mild
  · exact effect.misses misses mild
  cases effect with
  | hold => exact absurd (fun key => ⟨nofun, nofun⟩) mild
  | settle opens => exact absurd (fun key => ⟨nofun, nofun⟩) mild
  | enrol opens bonded action => exact absurd (fun key => ⟨nofun, nofun⟩) mild
  | bank opens action => exact absurd (fun key => ⟨nofun, nofun⟩) mild
  | @claim key c after share eth map opens settles registered shared enough solvent priced sent =>
      obtain ⟨same, ready⟩ := secure.head opens settles
      have balanced : c.books.Misses 0 := by
        rw [settles]
        exact misses.checkpoint
      obtain ⟨calls, balance, rfl, held⟩ := sent.rewards (same.trans idle) ready registered enough priced
      have closed := held.misses balanced env calls
      obtain ⟨_, kept, present⟩ := held.window env calls
      exact closed.restart present (kept.opened key present)
  | @leave key recipient c after map opens settles present releasable bonded sent =>
      obtain ⟨same, ready⟩ := secure.head opens settles
      have balanced : c.books.Misses 0 := by
        rw [settles]
        exact misses.checkpoint
      have registered := ready.registered present
      obtain ⟨calls, balance, window, rfl, held⟩ := sent.bond (same.trans idle) ready registered bonded
      have alone : Undisturbed env key calls ((c.release (c.validators key)).enter balance) := by
        rcases window with rfl | ⟨rfl, rfl⟩
        · trivial
        · rw [settles]
          exact undisturbed key (s.checkpoint env.timestamp) map rfl
            (internalRebalance_of_opens opens)
      have closed := held.misses (balanced.release releasable) env calls
      have unchanged := held.undisturbed calls alone
      obtain ⟨_, _, present⟩ := held.window env calls
      have records : (c.release (c.validators key)).validators = c.validators :=
        Books.release_validators _ _
      have same : (c.validators key).balance = ((executeAll env calls
          ((c.release (c.validators key)).enter balance)).books.validators key).balance := by
        have opened : ((c.release (c.validators key)).enter balance).validators = c.validators := records
        rw [opened] at unchanged
        exact (congrArg BitVec.toNat unchanged).symm
      rw [same] at closed
      exact closed.remove present

/-- The total of the effective balances is right after every call of a run in which the removals are
undisturbed. -/
theorem totalEB_add_pendingEB {trace : List (Move (World B G) (Input B))} {world : World B G}
    (run : Run Deployed (fun move => Succeeds move ∧ RemovesUndisturbed move) trace world) :
    world.pool.totalEB + world.pool.pendingEB =
      ∑ i ∈ world.pool.registered, (world.pool.validators i).effectiveBalance.toNat := by
  have misses : world.pool.books.Misses 0 := by
    induction run with
    | start deployed => exact deployed.shares.whole
    | next move earlier moves ih =>
        obtain ⟨succeeds, undisturbed⟩ := moves
        obtain ⟨idle, secure⟩ := run_secure (earlier.weaken fun _ both => both.1)
        obtain ⟨begun, arrived⟩ := secure.received move.label.fresh move.label.call.msg
        have before : ((move.before.pool.begin move.label.fresh).receive
            move.label.call.msg).books.Misses 0 := by
          show (move.before.pool.begin move.label.fresh).books.Misses 0
          rw [begin_books]
          exact ih
        obtain ⟨_, _, executes⟩ := succeeds
        rw [Call.execute_eq] at executes
        obtain ⟨operation, performs, effect⟩ := dispatch_ok executes
        refine effect.whole ?_ begun before ?_
        · exact (begin_status move.label.fresh move.before.pool).trans idle
        · rintro key c map rfl settles
          exact undisturbed key c map performs settles
  exact misses

end Windows

/-- The owner is paid for the exit of the validator 5 and updates the validator 6 to half of its balance. -/
def Sample.leaveUpdatingOther : Input Term where
  env := .answering 1701814600 1701814600 (validatorRoot 6 (.sample 16000000000 1000000))
  call := ownerCall 0 (.exit 5) [ownerCall 0
    (.updateValidator 6 (List.replicate 49 zero) (.sample 16000000000 1000000) 1701814600) []]
  fresh := true

/-- The total is right after an exit whose recipient updates another validator. -/
theorem updatedOther_total :
    (Sample.settledBoth.next Sample.leaveUpdatingOther).pool.totalEB +
        (Sample.settledBoth.next Sample.leaveUpdatingOther).pool.pendingEB =
      ∑ i ∈ (Sample.settledBoth.next Sample.leaveUpdatingOther).pool.registered,
        ((Sample.settledBoth.next Sample.leaveUpdatingOther).pool.validators i).effectiveBalance.toNat := by
  have settled : Run Deployed (fun move => Succeeds move ∧ RemovesUndisturbed move)
      [Sample.joinedBoth.move Sample.settle, Sample.joined.move Sample.joinToo, SampleWorld.deployed.move Sample.join]
      Sample.settledBoth := by
    apply Sample.settledBoth_run
    · exact ⟨Sample.join_succeeds, fun key c map performs => nomatch performs⟩
    · exact ⟨Sample.joinToo_succeeds, fun key c map performs => nomatch performs⟩
    · exact ⟨Sample.settleBoth_succeeds, fun key c map performs => nomatch performs⟩
  refine totalEB_add_pendingEB (World.run_move Sample.leaveUpdatingOther settled
    ⟨World.move_succeeds (by decide +kernel), ?_⟩)
  intro key c map performs settles
  -- Only the validator 5 leaves, and the recipient of its bond updates another one.
  obtain rfl : key = 5 := by
    cases performs with
    | exit => rfl
  unfold Sample.leaveUpdatingOther World.move ownerCall Call.reentry Undisturbed
  split
  · refine ⟨?_, trivial⟩
    intro validatorIndex validatorProof validator ts asked same
    obtain ⟨rfl, _⟩ := Message.updateValidator.inj asked
    exact absurd same (by decide)
  · trivial

/-- The update of a half-removed validator takes the balance of another one out of `totalEB`. -/
theorem reentered_corrupted :
    Run Deployed Succeeds Sample.reenteredTrace Sample.reentered ∧
    Sample.reentered.pool.totalEB + Sample.reentered.pool.pendingEB ≠
      ∑ i ∈ Sample.reentered.pool.registered, (Sample.reentered.pool.validators i).effectiveBalance.toNat := by
  refine ⟨Sample.reentered_run, ?_⟩
  intro same
  have member : (6 : Word) ∈ Sample.reentered.pool.registered := Ledger.mem_keys.mpr (by decide +kernel)
  have part := Finset.single_le_sum (f := fun i => (Sample.reentered.pool.validators i).effectiveBalance.toNat)
    (fun i _ => Nat.zero_le _) member
  rw [← same] at part
  exact absurd part (by decide +kernel)

end SmoothlyPool
