import SmoothlyPool.Proof.Pool.Window
import SmoothlyPool.Proof.Pool.Refine
import SmoothlyPool.Proof.Scenario
import SmoothlyPool.Library.ProRata

namespace SmoothlyPool

open Pool Transition

variable {B : Type} {G : ReentrancyGuard}

namespace Pool

/-- The bonds are accounted for, where the given number of bonds has been released early. -/
structure Secure (released : ℕ) (s : Pool B G) : Prop where
  bonds : s.totalBond + BOND * released = BOND * s.registered.card
  each : ∀ key, (s.validators key).Registered → (s.validators key).bond = BOND
  vacant : ∀ key, ¬ (s.validators key).Registered → s.validators key = .unset
  opened : ∀ key, (s.validators key).Registered → 0 < s.lastRebalance
  covered : s.totalBond ≤ s.balance

/-- Security concerns only the records, the last rebalance, the bonds and the balance. -/
theorem Secure.congr {released : ℕ} {s r : Pool B G} (secure : s.Secure released)
    (records : r.validators = s.validators) (rebalanced : s.lastRebalance ≤ r.lastRebalance)
    (bonds : r.totalBond = s.totalBond) (covered : s.totalBond ≤ r.balance) : r.Secure released := by
  obtain ⟨total, each, vacant, opened, _⟩ := secure
  constructor
  · rw [bonds, Pool.registered, records]
    exact total
  · rwa [records]
  · rwa [records]
  · rw [records]
    exact fun key alive => (opened key alive).trans_le rebalanced
  · rwa [bonds]

/-- A bonded record replaces another record, and the released bonds make up for the difference. -/
theorem Secure.write {before after : ℕ} {s r : Pool B G} (secure : s.Secure before) (key : Word)
    (record : Validator) (records : r.validators = Function.update s.validators key record)
    (opened : 0 < r.lastRebalance)
    (bonded : record.Registered → record.bond = BOND) (empty : ¬ record.Registered → record = .unset)
    (bonds : r.totalBond + BOND * after + (if (s.validators key).Registered then BOND else 0) =
      s.totalBond + BOND * before + if record.Registered then BOND else 0)
    (covered : r.totalBond ≤ r.balance) : r.Secure after := by
  have exchange := Ledger.total_update Validator.Registered (fun _ => BOND) s.validators key record
  have count (ledger : Word → Validator) : Ledger.total Validator.Registered (fun _ => BOND) ledger =
      BOND * (Ledger.keys Validator.Registered ledger).card := by
    rw [Ledger.total, Finset.sum_const, smul_eq_mul, Nat.mul_comm]
  rw [count, count] at exchange
  have total : s.totalBond + BOND * before = BOND * (Ledger.keys Validator.Registered s.validators).card :=
    secure.bonds
  refine ⟨?_, ?_, ?_, ?_, covered⟩
  · rw [Pool.registered, records]
    omega
  · rw [records]
    exact (Function.forall_update_iff s.validators fun _ validator =>
      validator.Registered → validator.bond = BOND).mpr ⟨bonded, fun other _ => secure.each other⟩
  · rw [records]
    exact (Function.forall_update_iff s.validators fun _ validator =>
      ¬ validator.Registered → validator = .unset).mpr ⟨empty, fun other _ => secure.vacant other⟩
  · exact fun _ _ => opened

theorem Secure.after {released : ℕ} {s : Pool B G} (secure : s.Secure released) :
    s.nonReentrantAfter.Secure released := secure.congr rfl le_rfl rfl secure.covered

/-- A new member brings its bond. -/
theorem Secure.enrol {released : ℕ} {s r : Pool B G} (secure : s.Secure released) {key : Word}
    {record : Validator} (vacant : ¬ (s.validators key).Registered) (alive : record.Registered)
    (bonded : record.bond = BOND) (records : r.validators = Function.update s.validators key record)
    (opened : 0 < r.lastRebalance) (bonds : r.totalBond = s.totalBond + BOND)
    (covered : r.totalBond ≤ r.balance) : r.Secure released := by
  refine secure.write key record records opened (fun _ => bonded) (fun dead => absurd alive dead) ?_ covered
  rw [if_neg vacant, if_pos alive, bonds]
  omega

/-- A rewritten member keeps its bond. -/
theorem Secure.rewrite {released : ℕ} {s r : Pool B G} (secure : s.Secure released) {key : Word}
    {record : Validator} (registered : (s.validators key).Registered) (alive : record.Registered)
    (bonded : record.bond = (s.validators key).bond)
    (records : r.validators = Function.update s.validators key record)
    (rebalanced : s.lastRebalance ≤ r.lastRebalance) (bonds : r.totalBond = s.totalBond)
    (covered : s.totalBond ≤ r.balance) : r.Secure released := by
  have opened := (secure.opened key registered).trans_le rebalanced
  have whole := bonded.trans (secure.each key registered)
  refine secure.write key record records opened (fun _ => whole) (fun dead => absurd alive dead) ?_
    (bonds.trans_le covered)
  rw [if_pos registered, if_pos alive, bonds]

theorem Secure.restart {released : ℕ} {s : Pool B G} {key : Word} (secure : s.Secure released)
    (registered : (s.validators key).Registered) : (s.restart key).Secure released := by
  have alive : ((s.validators key).restart s.lastRebalance).Registered := (secure.opened key registered).ne'
  exact secure.rewrite registered alive rfl rfl le_rfl rfl secure.covered

/-- A removal releases the bond before it deletes the record. -/
theorem Secure.release {s : Pool B G} {key : Word} (secure : s.Secure 0)
    (registered : (s.validators key).Registered) (bonded : (s.validators key).bond ≤ s.totalBond) :
    (s.release (s.validators key)).Secure 1 := by
  have whole := secure.each key registered
  have records : (s.release (s.validators key)).validators = s.validators := Books.release_validators _ _
  have rebalanced : (s.release (s.validators key)).lastRebalance = s.lastRebalance :=
    Books.release_lastRebalance _ _
  obtain ⟨bonds, each, vacant, opened, covered⟩ := secure
  refine ⟨?_, ?_, ?_, ?_, ?_⟩
  · rw [Pool.registered, records]
    show s.totalBond - (s.validators key).bond + BOND * 1 = BOND * s.registered.card
    omega
  · rwa [records]
  · rwa [records]
  · rwa [records, rebalanced]
  · exact (Nat.sub_le _ _).trans covered

theorem Secure.remove {s : Pool B G} {key : Word} (secure : s.Secure 1)
    (registered : (s.validators key).Registered) : (s.remove key).Secure 0 := by
  have dead : ¬ Validator.unset.Registered := fun alive => alive rfl
  refine secure.write key .unset rfl (secure.opened key registered) (fun alive => absurd alive dead)
    (fun _ => rfl) ?_ secure.covered
  rw [if_pos registered, if_neg dead]
  show s.totalBond + BOND * 0 + BOND = s.totalBond + BOND * 1 + 0
  omega

theorem checkpoint_lastRebalance_le {timestamp : ℕ} {s : Pool B G} (opens : s.books.Opens timestamp) :
    s.lastRebalance ≤ (s.checkpoint timestamp).lastRebalance :=
  (Books.checkpoint_lastRebalance_le opens.ordered).1

theorem Secure.checkpoint {timestamp released : ℕ} {s : Pool B G} (secure : s.Secure released)
    (opens : s.books.Opens timestamp) : (s.checkpoint timestamp).Secure released :=
  secure.congr (checkpoint_validators timestamp s) (checkpoint_lastRebalance_le opens) rfl secure.covered

end Pool

/-- This is what holds inside the window of a payment for one validator. -/
structure Held (released : ℕ) (key : Word) (s : Pool B G) : Prop where
  locked : s.status = G.entered
  secure : s.Secure released
  present : (s.validators key).Registered

/-- A write of a live record keeps every member. -/
theorem registered_write {s r : Pool B G} {key : Word} {record : Validator}
    (records : r.validators = Function.update s.validators key record) (alive : record.Registered) :
    ∀ other, (s.validators other).Registered → (r.validators other).Registered := by
  rw [records]
  exact (Function.forall_update_iff s.validators fun other validator =>
    (s.validators other).Registered → validator.Registered).mpr ⟨fun _ => alive, fun _ _ present => present⟩

/-- A mild operation keeps the pool secure and keeps every member.
The value of the call has arrived before. -/
theorem Effect.secure {timestamp released : ℕ} {msg : Msg} {callback : Callback B G} {s r : Pool B G}
    {operation : Books.Operation} (secure : s.Secure released)
    (arrived : s.totalBond + msg.value ≤ s.balance)
    (effect : Effect timestamp msg callback s operation r) (mild : operation.Mild) :
    r.Secure released ∧ ∀ key, (s.validators key).Registered → (r.validators key).Registered := by
  cases effect with
  | hold => exact ⟨secure, fun _ alive => alive⟩
  | settle opens =>
      refine ⟨secure.checkpoint opens, ?_⟩
      intro key alive
      rwa [checkpoint_validators]
  | @enrol key effectiveBalance withdrawal next opens bonded action =>
      cases action with
      | enrol vacant narrow genesis inside =>
          rw [Books.checkpoint_validators, books_validators] at vacant
          have positive : 0 < timestamp := lt_of_lt_of_le (by decide) genesis
          have alive : ((s.validators key).enrol effectiveBalance withdrawal timestamp).Registered :=
            positive.ne'
          have records : ((s.books.checkpoint timestamp).enrol key effectiveBalance withdrawal
              timestamp).validators = Function.update s.validators key
                ((s.validators key).enrol effectiveBalance withdrawal timestamp) := by
            rw [Books.enrol_validators, Books.checkpoint_validators, books_validators]
          have opened : 0 < (s.books.checkpoint timestamp).lastRebalance := by
            have genesis : 1606824000 ≤ timestamp := genesis
            have inside : timestamp - (s.books.checkpoint timestamp).lastRebalance ≤ 21 * 24 * 60 * 60 := inside
            omega
          rw [bonded] at arrived
          exact ⟨secure.enrol vacant alive rfl records opened rfl arrived, registered_write records alive⟩
  | @bank key effectiveBalance next opens action =>
      cases action with
      | bank registered settled covered inside =>
          rw [Books.checkpoint_validators, books_validators] at registered
          have positive := secure.opened key registered
          have alive : ((s.validators key).bank effectiveBalance timestamp).Registered :=
            (positive.trans_le opens.ordered).ne'
          have records : ((s.books.checkpoint timestamp).bank key effectiveBalance timestamp).validators =
              Function.update s.validators key ((s.validators key).bank effectiveBalance timestamp) := by
            rw [Books.bank_validators, Books.checkpoint_validators, books_validators]
          exact ⟨secure.rewrite registered alive rfl records (checkpoint_lastRebalance_le opens) rfl secure.covered,
            registered_write records alive⟩
  | claim map opens settles registered shared enough solvent priced sent => exact absurd rfl (mild _).1
  | leave map opens settles present releasable bonded sent => exact absurd rfl (mild _).2

/-- The head of a function keeps the pool secure. -/
theorem Pool.Secure.head {timestamp : ℕ} {map : HashMap B} {s c : Pool B G} (secure : s.Secure 0)
    (opens : s.books.Opens timestamp) (settles : c = { s.checkpoint timestamp with transient := map }) :
    c.status = s.status ∧ c.Secure 0 := by
  rw [settles]
  exact ⟨rfl, (secure.checkpoint opens).congr rfl le_rfl rfl secure.covered⟩

/-- A record with a withdrawal address belongs to a member. -/
theorem Pool.Secure.registered {released : ℕ} {key : Word} {s : Pool B G} (secure : s.Secure released)
    (present : (s.validators key).Registered ∨ (s.validators key).withdrawal ≠ 0) :
    (s.validators key).Registered := by
  rcases present with registered | owned
  · exact registered
  · by_contra dead
    exact owned (congrArg Validator.withdrawal (secure.vacant key dead))

section Windows

variable [Bytes32 B]

/-- The ETH of a call adds to a secure pool. -/
theorem Pool.Secure.received {s : Pool B G} (secure : s.Secure 0) (fresh : Bool) (msg : Msg) :
    ((s.begin fresh).receive msg).Secure 0 ∧
    ((s.begin fresh).receive msg).totalBond + msg.value ≤ ((s.begin fresh).receive msg).balance := by
  have covered := secure.covered
  have larger : s.totalBond ≤ s.balance + msg.value := covered.trans (Nat.le_add_right _ _)
  obtain ⟨map, begun⟩ := s.begin_eq fresh
  rw [begun]
  exact ⟨secure.congr rfl le_rfl rfl larger, Nat.add_le_add_right covered _⟩

theorem Deployed.secure {world : World B G} (deployed : Deployed world) :
    world.pool.status = G.notEntered ∧ world.pool.Secure 0 := by
  obtain ⟨self, balance, created⟩ := deployed
  rw [created]
  have dead (key : Word) : ¬ ((Pool.constructor (B := B) (G := G) self balance world.now).validators
      key).Registered := fun alive => alive rfl
  have none : (Pool.constructor (B := B) (G := G) self balance world.now).registered = ∅ :=
    Finset.filter_eq_empty_iff.mpr fun key _ => dead key
  refine ⟨rfl, ?_, ?_, fun _ _ => rfl, ?_, Nat.zero_le _⟩
  · rw [none]
    rfl
  · exact fun key alive => absurd alive (dead key)
  · exact fun key alive => absurd alive (dead key)

variable [DecidableEq B]

/-- A call inside the window keeps what holds there. -/
theorem Held.execute {env : Env B} {released : ℕ} {key : Word} {call : Call B} {s r : Pool B G}
    (held : Held released key s) (success : call.execute env s = .ok r) : Held released key r := by
  rw [Call.execute_eq] at success
  obtain ⟨operation, _, effect⟩ := dispatch_ok success
  have mild : operation.Mild := by
    apply effect.mild
    exact held.locked
  have covered := held.secure.covered
  have arrived : s.totalBond ≤ s.balance + call.msg.value := by omega
  have secure : ({ s with balance := s.balance + call.msg.value } : Pool B G).Secure released :=
    held.secure.congr rfl le_rfl rfl arrived
  obtain ⟨kept, members⟩ := effect.secure secure (Nat.add_le_add_right covered _) mild
  exact ⟨(effect.status mild).trans held.locked, kept, members key held.present⟩

/-- Everything that holds when a window opens holds when it closes. -/
theorem Held.window {released : ℕ} {key : Word} {s : Pool B G} (held : Held released key s) (env : Env B)
    (calls : List (Call B)) : Held released key (executeAll env calls s) :=
  executeAll_invariant (Held released key) calls s (fun _ _ _ _ earlier success => earlier.execute success) held

/-- A payout of rewards leaves the bonds in the pool. -/
theorem payout_le_rewards {share smooths rewards : ℕ} (enough : share ≤ smooths) :
    share * BPS / smooths * rewards / BPS ≤ rewards := ProRata.payout_le enough

/-- The window of a withdrawal opens on a pool that holds every bond. -/
theorem Pool.PaysOut.rewards {env : Env B} {call : Call B} {key : Word} {recipient : Address}
    {share eth : ℕ} {c after : Pool B G} (idle : c.status = G.notEntered) (secure : c.Secure 0)
    (registered : (c.validators key).Registered) (enough : share ≤ c.smooths)
    (priced : eth = share * BPS / c.smooths * (c.balance - c.totalBond) / BPS)
    (sent : PaysOut (call.callback env) recipient eth c (c.consume share) after) :
    ∃ calls balance, after = nonReentrantAfter (executeAll env calls ((c.consume share).enter balance)) ∧
      Held 0 key ((c.consume share).enter balance) := by
  obtain ⟨_, calls, balance, left, rfl⟩ := sent.window idle
  have payout : eth ≤ c.balance - c.totalBond := priced.trans_le (payout_le_rewards enough)
  have solvent := secure.covered
  have left : c.balance - eth ≤ balance := by
    rcases left with ⟨_, kept⟩ | ⟨_, spent⟩
    · exact (Nat.sub_le _ _).trans_eq kept.symm
    · exact spent.ge
  have covered : c.totalBond ≤ balance := by omega
  exact ⟨calls, balance, rfl, rfl, secure.congr rfl le_rfl rfl covered, registered⟩

/-- The window of a removal opens on a pool that has released one bond. -/
theorem Pool.PaysOut.bond {env : Env B} {call : Call B} {key : Word} {recipient : Address}
    {c after : Pool B G} (idle : c.status = G.notEntered) (secure : c.Secure 0)
    (registered : (c.validators key).Registered) (bonded : (c.validators key).bond ≤ c.totalBond)
    (sent : PaysOut (call.callback env) recipient (c.validators key).bond c
      (c.release (c.validators key)) after) :
    ∃ calls balance,
      (calls = [] ∨ calls = call.reentry ∧ balance = c.balance - (c.validators key).bond) ∧
      after = nonReentrantAfter
        (executeAll env calls ((c.release (c.validators key)).enter balance)) ∧
      Held 1 key ((c.release (c.validators key)).enter balance) := by
  obtain ⟨_, calls, balance, left, rfl⟩ := sent.window idle
  have solvent := secure.covered
  have covered : c.totalBond - (c.validators key).bond ≤ balance := by
    rcases left with ⟨_, kept⟩ | ⟨_, spent⟩
    · exact ((Nat.sub_le _ _).trans solvent).trans_eq kept.symm
    · exact (Nat.sub_le_sub_right solvent _).trans_eq spent.symm
  have records : (c.release (c.validators key)).validators = c.validators := Books.release_validators _ _
  refine ⟨calls, balance, left.imp And.left id, rfl, rfl, ?_, ?_⟩
  · exact (secure.release registered bonded).congr rfl le_rfl rfl covered
  · show ((c.release (c.validators key)).validators key).Registered
    rwa [records]

/-- A call on the idle pool keeps it secure, whatever the recipient of ETH calls. -/
theorem Effect.solvent {env : Env B} {call : Call B} {msg : Msg} {s r : Pool B G}
    {operation : Books.Operation} (idle : s.status = G.notEntered) (secure : s.Secure 0)
    (arrived : s.totalBond + msg.value ≤ s.balance)
    (effect : Effect env.timestamp msg (call.callback env) s operation r) :
    r.status = G.notEntered ∧ r.Secure 0 := by
  by_cases mild : operation.Mild
  · exact ⟨(effect.status mild).trans idle, (effect.secure secure arrived mild).1⟩
  cases effect with
  | hold => exact absurd (fun key => ⟨nofun, nofun⟩) mild
  | settle opens => exact absurd (fun key => ⟨nofun, nofun⟩) mild
  | enrol opens bonded action => exact absurd (fun key => ⟨nofun, nofun⟩) mild
  | bank opens action => exact absurd (fun key => ⟨nofun, nofun⟩) mild
  | claim map opens settles registered shared enough solvent priced sent =>
      obtain ⟨same, ready⟩ := secure.head opens settles
      obtain ⟨calls, balance, rfl, held⟩ := sent.rewards (same.trans idle) ready registered enough priced
      obtain ⟨locked, closed, present⟩ := held.window env calls
      exact ⟨(congrArg G.after locked).trans G.after_entered, closed.after.restart present⟩
  | leave map opens settles present releasable bonded sent =>
      obtain ⟨same, ready⟩ := secure.head opens settles
      obtain ⟨calls, balance, _, rfl, held⟩ :=
        sent.bond (same.trans idle) ready (ready.registered present) bonded
      obtain ⟨locked, closed, present⟩ := held.window env calls
      exact ⟨(congrArg G.after locked).trans G.after_entered, closed.after.remove present⟩

theorem Succeeds.secure {move : Move (World B G) (Input B)} (succeeds : Succeeds move)
    (idle : move.before.pool.status = G.notEntered) (secure : move.before.pool.Secure 0) :
    move.after.pool.status = G.notEntered ∧ move.after.pool.Secure 0 := by
  obtain ⟨_, _, executes⟩ := succeeds
  rw [Call.execute_eq] at executes
  obtain ⟨operation, _, effect⟩ := dispatch_ok executes
  obtain ⟨begun, arrived⟩ := secure.received move.label.fresh move.label.call.msg
  refine effect.solvent ?_ begun arrived
  exact (begin_status move.label.fresh move.before.pool).trans idle

theorem run_secure {trace : List (Move (World B G) (Input B))} {world : World B G}
    (run : Run Deployed Succeeds trace world) :
    world.pool.status = G.notEntered ∧ world.pool.Secure 0 := by
  apply run.invariant (fun world => world.pool.status = G.notEntered ∧ world.pool.Secure 0)
  · exact fun _ deployed => deployed.secure
  · rintro move succeeds ⟨idle, secure⟩
    exact succeeds.secure idle secure

end Windows

end SmoothlyPool
