import SmoothlyPool.Proof.Oracle.Block
import SmoothlyPool.Proof.Pool.Drain
import SmoothlyPool.Proof.Pool.Gate

namespace SmoothlyPool

open Bytes32 Checked GIndex Merkle Pool Transition BlockTree BeaconOracle

variable {B : Type} {G : ReentrancyGuard}

/-- The first byte of the credentials is set. -/
theorem withdrawalToAddress_isOk {credentials : Word} :
    (∃ address, withdrawalToAddress credentials = .ok address) ↔ credentials >>> 248 ≠ 0 := by
  simp [withdrawalToAddress, bind_eq_ok]

section Room

/-- The bonds leave room for one more bond. -/
theorem room_for_bond {now : ℕ} {s : Pool B G} (secure : s.Secure 0) (tidy : s.books.Tidy now) :
    s.totalBond + BOND < 2 ^ 256 := by
  have bonds := secure.bonds
  have members : BOND * s.registered.card ≤ BOND * 2 ^ 64 := Nat.mul_le_mul_left BOND tidy.card_le
  have small : BOND * 2 ^ 64 + BOND < 2 ^ 256 := by norm_num [BOND]
  omega

/-- The pending sums leave room for one more balance after the rebalance. -/
theorem room_for_balance {timestamp : ℕ} {s : Pool B G} (gated : s.books.Gated) (tidy : s.books.Tidy timestamp)
    (effectiveBalance : Uint64) (validators : Word → Validator) (totalEB totalBond : ℕ) :
    ∃ after, allocateSmooths effectiveBalance.toNat timestamp { s.checkpoint timestamp with
      validators := validators, totalEB := totalEB, totalBond := totalBond } = .ok after := by
  have settled := gated.checkpoint tidy
  apply allocateSmooths_of_inside
  · exact tidy.checkpoint.current
  · exact Books.checkpoint_inside timestamp s.books
  · exact (Nat.le_add_left _ _).trans (settled.balance_le tidy.checkpoint)
  · exact settled.pendingSmooths_le tidy.checkpoint

end Room

section Register

variable [Bytes32 B] [DecidableEq B] {env : Env B} {msg : Msg} {s : Pool B G} {validatorIndex : Uint64}
  {proof : List B} {record : BeaconChainValidator} {ts : Uint64} {gIndex : ℕ}

/-- These are the conditions on a registration beside its proof. -/
structure Admissible (env : Env B) (msg : Msg) (s : Pool B G) (key : Word) (record : BeaconChainValidator) :
    Prop where
  bonded : msg.value = BOND
  vacant : ¬ (s.validators key).Registered
  active : isActiveValidator env record = .ok true
  credentials : record.withdrawalCredentials >>> 248 ≠ 0

theorem register_admissible {r : Pool B G} (success : s.register env msg validatorIndex proof record ts = .ok r) :
    Admissible env msg s (validatorIndex.setWidth 256) record := by
  simp only [register, bind_eq_ok, require_eq_ok] at success
  obtain ⟨c, settles, _, bonded, _, vacant, _, _, withdrawal, address, active, activated, _, current, _⟩ := success
  obtain ⟨_, rfl⟩ := internalRebalance_eq_ok.mp settles
  rw [checkpoint_validators] at vacant
  rw [current] at activated
  exact ⟨bonded, fun registered => vacant (Nat.pos_of_ne_zero registered), activated,
    withdrawalToAddress_isOk.mp ⟨withdrawal, address⟩⟩

theorem register_of_admissible (admissible : Admissible env msg s (validatorIndex.setWidth 256) record)
    (opens : s.books.Opens env.timestamp) (located : validatorGIndex validatorIndex = .ok gIndex)
    (verifies : verifyValidator env proof record gIndex ts = .ok true) (room : s.totalBond + BOND < 2 ^ 256)
    (allocates : ∀ (effectiveBalance : Uint64) validators totalEB totalBond, ∃ after,
      allocateSmooths effectiveBalance.toNat env.timestamp { s.checkpoint env.timestamp with
        validators := validators, totalEB := totalEB, totalBond := totalBond } = .ok after) :
    ∃ after, s.register env msg validatorIndex proof record ts = .ok after := by
  obtain ⟨bonded, vacant, active, credentials⟩ := admissible
  obtain ⟨withdrawal, address⟩ := withdrawalToAddress_isOk.mpr credentials
  have settles := internalRebalance_of_opens opens
  have free : ¬ 0 < ((s.checkpoint env.timestamp).validators (validatorIndex.setWidth 256)).start := by
    rw [checkpoint_validators]
    exact fun present => vacant present.ne'
  obtain ⟨after, allocated⟩ := allocates record.effectiveBalance
    (Function.update (s.checkpoint env.timestamp).validators (validatorIndex.setWidth 256)
      { (s.checkpoint env.timestamp).validators (validatorIndex.setWidth 256) with
        effectiveBalance := record.effectiveBalance
        withdrawal := withdrawal
        bond := BOND
        start := env.timestamp }) (s.checkpoint env.timestamp).totalEB (s.totalBond + BOND)
  refine ⟨after, ?_⟩
  apply bind_of_ok settles
  apply bind_of_ok (require_ok bonded)
  apply bind_of_ok (require_ok free)
  apply bind_of_ok located
  apply bind_of_ok address
  apply bind_of_ok active
  apply bind_of_ok (require_ok rfl)
  apply bind_of_ok verifies
  exact bind_of_ok (add_ok room) allocated

end Register

section Withdraw

/-- `_withdraw` succeeds on an idle pool with enough shares while nothing overflows. -/
theorem internalWithdraw_of_enough {callback : Callback B G} {validator : Validator} {s : Pool B G}
    (idle : s.status = G.notEntered) (solvent : s.totalBond ≤ s.balance) (enabled : s.smooths ≠ 0)
    (enough : validator.claimable s.lastRebalance ≤ s.smooths) (scaled : s.smooths * BPS < 2 ^ 256)
    (bounded : BPS * s.balance < 2 ^ 256) (accepts : ∀ paid, ∃ left, callback paid = .ok left) :
    ∃ result, internalWithdraw callback validator s = .ok result := by
  have rewards : s.totalETH = .ok (s.balance - s.totalBond) := totalETH_eq_ok.mpr ⟨solvent, rfl⟩
  have share : validator.claimable s.lastRebalance * BPS ≤ s.smooths * BPS := Nat.mul_le_mul_right BPS enough
  have product : BPS * (s.balance - s.totalBond) ≤ BPS * s.balance := Nat.mul_le_mul_left BPS (Nat.sub_le _ _)
  have affordable : ProRata.payout BPS (validator.claimable s.lastRebalance) s.smooths (s.balance - s.totalBond) ≤
      s.balance := (ProRata.payout_le enough).trans (Nat.sub_le _ _)
  obtain ⟨paid, sent⟩ : ∃ paid, sendEther callback validator.withdrawal
      (ProRata.payout BPS (validator.claimable s.lastRebalance) s.smooths (s.balance - s.totalBond))
      ({ s.consume (validator.claimable s.lastRebalance) with status := G.entered } : Pool B G) = .ok paid :=
    sendEther_of_accepts affordable (.inr accepts)
  exact ⟨_, internalWithdraw_of_covered idle rewards enabled enough (share.trans_lt scaled)
    (product.trans_lt bounded) sent⟩

/-- These are the conditions on a withdrawal beside its proof. -/
structure Payable (env : Env B) (msg : Msg) (s : Pool B G) (key : Word) (timestamp : Uint64) : Prop where
  unpaid : msg.value = 0
  registered : (s.validators key).Registered
  recent : (s.validators key).start ≤ timestamp.toNat
  funded : s.totalBond < s.balance
  enabled : (s.checkpoint env.timestamp).smooths ≠ 0
  enough : (s.validators key).claimable (s.checkpoint env.timestamp).lastRebalance ≤
    (s.checkpoint env.timestamp).smooths

variable [Bytes32 B] [DecidableEq B] {env : Env B} {msg : Msg} {s : Pool B G} {callback : Callback B G}
  {key : Word} {indices : List ℕ} {proof : List B} {timestamp : Uint64}

theorem withdraw_payable {r : Pool B G}
    (success : s.withdraw env msg callback indices proof key timestamp = .ok r) :
    Payable env msg s key timestamp := by
  simp only [withdraw, nonPayable, bind_eq_ok, require_eq_ok] at success
  obtain ⟨_, unpaid, c, settles, _, registered, _, recent, total, rewards, _, funded, ⟨_, map⟩, _, ⟨eth, paid⟩,
    withdraws, _⟩ := success
  obtain ⟨_, rfl⟩ := internalRebalance_eq_ok.mp settles
  obtain ⟨enough, _, _, _⟩ := internalWithdraw_ok withdraws
  have enabled := internalWithdraw_enabled withdraws
  obtain ⟨solvent, rfl⟩ := totalETH_eq_ok.mp rewards
  have records := checkpoint_validators env.timestamp s
  have solvent : s.totalBond ≤ s.balance := solvent
  have funded : s.balance - s.totalBond ≠ 0 := funded
  rw [records] at registered recent
  rw [records] at enough
  exact ⟨unpaid, registered, Nat.le_of_not_lt recent, by omega, enabled, enough⟩

theorem withdraw_of_payable {map : HashMap B} (payable : Payable env msg s key timestamp)
    (idle : s.status = G.notEntered) (opens : s.books.Opens env.timestamp)
    (verifies : verifyFeeRecipient env indices proof key s.self timestamp s.transient = .ok (true, map))
    (scaled : (s.checkpoint env.timestamp).smooths * BPS < 2 ^ 256) (bounded : BPS * s.balance < 2 ^ 256)
    (accepts : ∀ paid, ∃ left, callback paid = .ok left) :
    ∃ after, s.withdraw env msg callback indices proof key timestamp = .ok after := by
  obtain ⟨unpaid, registered, recent, funded, enabled, enough⟩ := payable
  have settles := internalRebalance_of_opens opens
  have records := checkpoint_validators env.timestamp s
  obtain ⟨⟨eth, paid⟩, withdraws⟩ : ∃ result, internalWithdraw callback ((s.checkpoint env.timestamp).validators key)
      { s.checkpoint env.timestamp with transient := map } = .ok result :=
    internalWithdraw_of_enough idle funded.le enabled (by rwa [records]) scaled bounded accepts
  rw [← records] at registered recent
  have rewards : (s.checkpoint env.timestamp).totalETH = .ok (s.balance - s.totalBond) :=
    totalETH_eq_ok.mpr ⟨funded.le, rfl⟩
  have total : s.balance - s.totalBond ≠ 0 := by omega
  exact ⟨_, withdraw_of_steps unpaid settles registered recent rewards total verifies withdraws⟩

end Withdraw

section Update

/-- The active branch goes through when the record is settled and the books are ready. -/
theorem updateActive_of_ready {env : Env B} {record : BeaconChainValidator} {key : Word} {s : Pool B G}
    (ready : s.books.Ready env.timestamp)
    (registered : (s.validators key).Registered) (settled : (s.validators key).start < s.lastRebalance)
    (allocates : ∀ (effectiveBalance : Uint64) validators totalEB totalBond, ∃ after,
      allocateSmooths effectiveBalance.toNat env.timestamp { s with
        validators := validators, totalEB := totalEB, totalBond := totalBond } = .ok after) :
    ∃ after, updateActive env key record s = .ok after := by
  have clock := env.timestamp_lt
  have past : (s.validators key).start ≤ env.timestamp := ready.tidy.past key
  have narrow := (s.validators key).effectiveBalance.isLt
  have balance : (s.validators key).effectiveBalance.toNat ≤ s.totalEB :=
    (ready.releasable registered).settled (Nat.not_le_of_lt settled)
  have share : (env.timestamp - (s.validators key).start) * (s.validators key).effectiveBalance.toNat ≤
      2 ^ 64 * 2 ^ 64 := Nat.mul_le_mul ((Nat.sub_le _ _).trans clock.le) narrow.le
  have banked : (s.validators key).smooths ≤ 2 ^ 64 * 2 ^ 64 :=
    (ready.banked key).trans (Nat.mul_le_mul_left _ (past.trans clock.le))
  have fits : (env.timestamp - (s.validators key).start) * (s.validators key).effectiveBalance.toNat < 2 ^ 256 := by
    omega
  have room : (s.validators key).smooths +
      (env.timestamp - (s.validators key).start) * (s.validators key).effectiveBalance.toNat < 2 ^ 256 := by
    omega
  obtain ⟨after, allocated⟩ := allocates record.effectiveBalance
    (Function.update s.validators key { s.validators key with
      smooths := (s.validators key).smooths +
        (env.timestamp - (s.validators key).start) * (s.validators key).effectiveBalance.toNat
      start := env.timestamp
      effectiveBalance := record.effectiveBalance })
    (s.totalEB - (s.validators key).effectiveBalance.toNat) s.totalBond
  refine ⟨after, ?_⟩
  apply bind_of_ok (require_ok (Nat.not_le_of_lt settled))
  apply bind_of_ok (sub_ok past)
  apply bind_of_ok (mul_ok fits)
  apply bind_of_ok (sub_ok balance)
  exact bind_of_ok (add_ok room) allocated

variable [Bytes32 B] [DecidableEq B] {env : Env B} {msg : Msg} {s : Pool B G} {callback : Callback B G}
  {validatorIndex : Uint64} {proof : List B} {record : BeaconChainValidator} {ts : Uint64} {gIndex : ℕ}

/-- These are the conditions on an update beside its proof.  An active record waits for the next rebalance. -/
structure Updatable (env : Env B) (msg : Msg) (s : Pool B G) (key : Word) (record : BeaconChainValidator) :
    Prop where
  unpaid : msg.value = 0
  registered : (s.validators key).Registered
  activity : ∃ active, isActiveValidator env record = .ok active ∧
    (active = true → (s.validators key).start < (s.checkpoint env.timestamp).lastRebalance)

theorem updateValidator_updatable {r : Pool B G}
    (success : s.updateValidator env msg callback validatorIndex proof record ts = .ok r) :
    Updatable env msg s (validatorIndex.setWidth 256) record := by
  simp only [updateValidator, nonPayable, bind_eq_ok, require_eq_ok] at success
  obtain ⟨_, unpaid, c, settles, _, registered, _, _, _, _, active, activated, rest⟩ := success
  obtain ⟨_, rfl⟩ := internalRebalance_eq_ok.mp settles
  have records := checkpoint_validators env.timestamp s
  refine ⟨unpaid, by rwa [records] at registered, active, activated, ?_⟩
  rintro rfl
  rw [if_pos rfl] at rest
  simp only [updateActive, bind_eq_ok, require_eq_ok] at rest
  obtain ⟨_, settled, _⟩ := rest
  rw [records] at settled
  exact Nat.lt_of_not_le settled

theorem updateValidator_of_updatable (updatable : Updatable env msg s (validatorIndex.setWidth 256) record)
    (opens : s.books.Opens env.timestamp) (located : validatorGIndex validatorIndex = .ok gIndex)
    (verifies : verifyValidator env proof record gIndex ts = .ok true)
    (banks : ((s.checkpoint env.timestamp).validators (validatorIndex.setWidth 256)).start <
      (s.checkpoint env.timestamp).lastRebalance →
      ∃ after, updateActive env (validatorIndex.setWidth 256) record (s.checkpoint env.timestamp) = .ok after)
    (exits : ∀ recipient, ∃ after, internalExit callback (validatorIndex.setWidth 256) recipient
      (s.checkpoint env.timestamp) = .ok after) :
    ∃ after, s.updateValidator env msg callback validatorIndex proof record ts = .ok after := by
  obtain ⟨unpaid, registered, active, activated, settled⟩ := updatable
  have settles := internalRebalance_of_opens opens
  rw [← checkpoint_validators env.timestamp s] at registered settled
  have rest : ∃ after, (if active = true then updateActive env (validatorIndex.setWidth 256) record
      (s.checkpoint env.timestamp) else internalExit callback (validatorIndex.setWidth 256)
      ((s.checkpoint env.timestamp).validators (validatorIndex.setWidth 256)).withdrawal
      (s.checkpoint env.timestamp)) = .ok after := by
    split_ifs with is
    · exact banks (settled is)
    · exact exits _
  obtain ⟨after, done⟩ := rest
  have free : nonPayable msg = .ok () := require_ok unpaid
  refine ⟨after, ?_⟩
  apply bind_of_ok free
  apply bind_of_ok settles
  apply bind_of_ok (require_ok registered)
  apply bind_of_ok located
  apply bind_of_ok verifies
  exact bind_of_ok activated done

end Update

section Blocks

variable [Bytes32 B]

/-- The call can read the root of the block, and zeros follow a public key in memory. -/
structure Presents (world : World B G) (block : BeaconBlock B) (input : Input B) (ts : Uint64) : Prop where
  later : world.now ≤ input.env.timestamp
  root : input.env.beaconRoots ts = some (block.node 1)
  padded : ∀ offset, 48 ≤ offset → offset < 64 → input.env.memory offset = 0

/-- A call without ETH opens a new transaction on the same pool. -/
theorem received_unpaid {msg : Msg} (unpaid : msg.value = 0) (s : Pool B G) :
    ({ s.begin true with balance := (s.begin true).balance + msg.value } : Pool B G) =
      { s with transient := .empty } := by
  rw [unpaid, Pool.begin, if_pos rfl]
  rfl

variable [DecidableEq B]

variable {trace : List (Move (World B G) (Input B))} {world : World B G} {block : BeaconBlock B} {input : Input B}
  {ts : Uint64}

/-- An admissible registration with the siblings in a block succeeds. -/
theorem registers_of_admissible (run : Run Deployed (fun move => Succeeds move ∧ Quiet move) trace world)
    (presents : Presents world block input ts) {validatorIndex : Uint64}
    (inside : validatorIndex.toNat < block.validators.length)
    (asked : input.call.message = .register validatorIndex (branch block.node (memberIndex validatorIndex.toNat))
      block.validators[validatorIndex.toNat] ts)
    (admissible : Admissible input.env input.call.msg world.pool (validatorIndex.setWidth 256)
      block.validators[validatorIndex.toNat]) :
    ∃ after, input.call.execute input.env (world.pool.begin input.fresh) = .ok after := by
  obtain ⟨later, root, padded⟩ := presents
  obtain ⟨tidy, gated⟩ := quiet_gated run
  obtain ⟨begun, _⟩ := (run_secure (run.weaken fun _ both => both.1)).2.received input.fresh input.call.msg
  have unchanged : ((world.pool.begin input.fresh).receive input.call.msg).books = world.pool.books :=
    begin_books input.fresh world.pool
  have late := tidy.later later
  rw [← unchanged] at late gated
  obtain ⟨bonded, vacant, active, credentials⟩ := admissible
  rw [← books_validators, ← unchanged] at vacant
  rw [Call.execute_eq, asked]
  exact register_of_admissible ⟨bonded, vacant, active, credentials⟩ (gated.opens late input.env.timestamp_lt)
    (validatorGIndex_member (inside.trans_le block.validators_length)) (verifyValidator_branch root padded inside)
    (room_for_bond begun late) (room_for_balance gated late)

/-- After every quiet run the siblings in a block register a listed validator exactly when the bond is sent, the
index is free, the validator is active, and its credentials carry an address. -/
theorem honest_registration (run : Run Deployed (fun move => Succeeds move ∧ Quiet move) trace world)
    (presents : Presents world block input ts) {validatorIndex : Uint64}
    (inside : validatorIndex.toNat < block.validators.length)
    (asked : input.call.message = .register validatorIndex (branch block.node (memberIndex validatorIndex.toNat))
      block.validators[validatorIndex.toNat] ts) :
    (∃ after, input.call.execute input.env (world.pool.begin input.fresh) = .ok after) ↔
      Admissible input.env input.call.msg world.pool (validatorIndex.setWidth 256)
        block.validators[validatorIndex.toNat] := by
  constructor
  · rintro ⟨after, success⟩
    rw [Call.execute_eq, asked] at success
    obtain ⟨bonded, vacant, active, credentials⟩ := register_admissible success
    have unchanged : ((world.pool.begin input.fresh).receive input.call.msg).books = world.pool.books :=
      begin_books input.fresh world.pool
    refine ⟨bonded, ?_, active, credentials⟩
    rw [← books_validators, ← unchanged]
    exact vacant
  · exact registers_of_admissible run presents inside asked

/-- After every quiet run the siblings in a block that pays the pool withdraw for its proposer exactly when the
proposer is registered before the block, there are rewards and shares, and its share is part of them. -/
theorem honest_withdrawal (run : Run Deployed (fun move => Succeeds move ∧ Quiet move) trace world)
    (presents : Presents world block input ts) (fresh : input.fresh = true) (accepts : input.call.accepts = true)
    (supply : BPS * world.pool.balance < 2 ^ 256) (own : block.feeRecipient = world.pool.self) {helpers : List ℕ}
    (built : getHelperIndices [PROPOSER_INDEX, FEE_RECIPIENT] = .ok helpers)
    (asked : input.call.message = .withdraw [PROPOSER_INDEX, FEE_RECIPIENT] (helpers.map block.node)
      (block.proposerIndex.setWidth 256) ts) :
    (∃ after, input.call.execute input.env (world.pool.begin input.fresh) = .ok after) ↔
      Payable input.env input.call.msg world.pool (block.proposerIndex.setWidth 256) ts := by
  obtain ⟨later, root, _⟩ := presents
  obtain ⟨tidy, gated⟩ := quiet_gated run
  have idle := (run_secure (run.weaken fun _ both => both.1)).1
  have late := tidy.later later
  have clock := input.env.timestamp_lt
  rw [Call.execute_eq, asked, fresh]
  constructor
  · rintro ⟨after, success⟩
    have unpaid := (withdraw_payable success).unpaid
    rw [received_unpaid unpaid] at success
    obtain ⟨_, registered, recent, funded, enabled, enough⟩ := withdraw_payable success
    exact ⟨unpaid, registered, recent, funded, enabled, enough⟩
  · intro payable
    obtain ⟨unpaid, registered, recent, funded, enabled, enough⟩ := payable
    have settled := gated.checkpoint late
    have rebalanced := late.checkpoint.current
    have grown : (world.pool.checkpoint input.env.timestamp).smooths ≤
        2 ^ 129 * (world.pool.checkpoint input.env.timestamp).lastRebalance := settled.grown
    have current : (world.pool.checkpoint input.env.timestamp).lastRebalance ≤ input.env.timestamp := rebalanced
    have scaled : (world.pool.checkpoint input.env.timestamp).smooths * BPS < 2 ^ 256 :=
      calc (world.pool.checkpoint input.env.timestamp).smooths * BPS
        _ ≤ 2 ^ 129 * 2 ^ 64 * BPS := Nat.mul_le_mul_right _ (by omega)
        _ < 2 ^ 256 := by norm_num [BPS]
    have listens (paid : Pool B G) : ∃ left, input.call.callback input.env paid = .ok left :=
      ⟨executeAll input.env input.call.reentry paid, by rw [Call.callback, if_pos accepts]⟩
    obtain ⟨map, verifies⟩ := verifyFeeRecipient_block root built
    rw [own] at verifies
    rw [received_unpaid unpaid]
    exact withdraw_of_payable ⟨unpaid, registered, recent, funded, enabled, enough⟩ idle
      (gated.opens late clock) verifies scaled supply listens

/-- A ready pool removes every member of a call without ETH. -/
theorem internalExit_of_run {map : HashMap B} (run : Run Deployed (fun move => Succeeds move ∧ Quiet move ∧
      (WithdrawsInPlace move ∧ UpdatesAtRebalance move)) trace world)
    (later : world.now ≤ input.env.timestamp) (accepts : input.call.accepts = true) {key : Word}
    (member : (world.pool.validators key).Registered) (recipient : Address) :
    ∃ after, internalExit (input.call.callback input.env) key recipient
      { world.pool.checkpoint input.env.timestamp with transient := map } = .ok after := by
  have clock := input.env.timestamp_lt
  have ready := quiet_ready run
  obtain ⟨idle, secure⟩ := run_secure (run.weaken fun _ all => all.1)
  have whole := secure.checkpoint (ready.opens later clock)
  apply internalExit_of_ready
  · exact idle
  · exact whole.congr rfl le_rfl rfl whole.covered
  · exact ready.checkpoint later
  · exact clock
  · show ((world.pool.checkpoint input.env.timestamp).validators key).Registered
    rwa [checkpoint_validators]
  · exact fun paid => ⟨executeAll input.env input.call.reentry paid, by rw [Call.callback, if_pos accepts]⟩

/-- While the books are right, the siblings in a block slash its proposer exactly when it is registered and the
block pays another address than the pool. -/
theorem honest_slashing (run : Run Deployed (fun move => Succeeds move ∧ Quiet move ∧
      (WithdrawsInPlace move ∧ UpdatesAtRebalance move)) trace world)
    (presents : Presents world block input ts) (fresh : input.fresh = true) (accepts : input.call.accepts = true)
    {helpers : List ℕ} (built : getHelperIndices [PROPOSER_INDEX, FEE_RECIPIENT] = .ok helpers)
    (asked : input.call.message = .slashBadFeeRecipient [PROPOSER_INDEX, FEE_RECIPIENT] (helpers.map block.node)
      (block.proposerIndex.setWidth 256) block.feeRecipient ts) :
    (∃ after, input.call.execute input.env (world.pool.begin input.fresh) = .ok after) ↔
      input.call.msg.value = 0 ∧ (world.pool.validators (block.proposerIndex.setWidth 256)).Registered ∧
      block.feeRecipient ≠ world.pool.self := by
  obtain ⟨later, root, _⟩ := presents
  have opens := (quiet_ready run).opens later input.env.timestamp_lt
  have records := checkpoint_validators input.env.timestamp world.pool
  rw [Call.execute_eq, asked, fresh]
  constructor
  · rintro ⟨after, success⟩
    simp only [dispatch, slashBadFeeRecipient, nonPayable, bind_eq_ok, require_eq_ok] at success
    obtain ⟨_, unpaid, success⟩ := success
    rw [received_unpaid unpaid] at success
    obtain ⟨c, reopens, _, registered, _, _, _, wrong, _⟩ := success
    obtain ⟨_, rfl⟩ := internalRebalance_eq_ok.mp reopens
    exact ⟨unpaid, by rw [← records]; exact registered, wrong⟩
  · rintro ⟨unpaid, registered, wrong⟩
    obtain ⟨map, verifies⟩ := verifyFeeRecipient_block root built
    have member : ((world.pool.checkpoint input.env.timestamp).validators
        (block.proposerIndex.setWidth 256)).Registered := by
      rwa [records]
    rw [received_unpaid unpaid]
    have request : RemovalRequest input.env input.call.msg ({ world.pool with transient := .empty } : Pool B G)
        (block.proposerIndex.setWidth 256) (.slashBadFeeRecipient [PROPOSER_INDEX, FEE_RECIPIENT]
          (helpers.map block.node) (block.proposerIndex.setWidth 256) block.feeRecipient ts) :=
      .slash verifies wrong
    apply request.dispatch unpaid opens member
    intro _ recipient
    exact internalExit_of_run run later accepts registered recipient

/-- While the books are right, the siblings in a block update a listed validator exactly when it is registered and,
if it is active, a rebalance has settled its record. -/
theorem honest_update (run : Run Deployed (fun move => Succeeds move ∧ Quiet move ∧
      (WithdrawsInPlace move ∧ UpdatesAtRebalance move)) trace world)
    (presents : Presents world block input ts) (fresh : input.fresh = true) (accepts : input.call.accepts = true)
    {validatorIndex : Uint64} (inside : validatorIndex.toNat < block.validators.length)
    (asked : input.call.message = .updateValidator validatorIndex
      (branch block.node (memberIndex validatorIndex.toNat)) block.validators[validatorIndex.toNat] ts) :
    (∃ after, input.call.execute input.env (world.pool.begin input.fresh) = .ok after) ↔
      Updatable input.env input.call.msg world.pool (validatorIndex.setWidth 256)
        block.validators[validatorIndex.toNat] := by
  obtain ⟨later, root, padded⟩ := presents
  have ready := (quiet_ready run).checkpoint later
  have opens := (quiet_ready run).opens later input.env.timestamp_lt
  obtain ⟨tidy, gated⟩ := quiet_gated (run.weaken fun _ all => ⟨all.1, all.2.1⟩)
  have records := checkpoint_validators input.env.timestamp world.pool
  rw [Call.execute_eq, asked, fresh]
  constructor
  · rintro ⟨after, success⟩
    have unpaid := (updateValidator_updatable success).unpaid
    rw [received_unpaid unpaid] at success
    obtain ⟨_, registered, activity⟩ := updateValidator_updatable success
    exact ⟨unpaid, registered, activity⟩
  · rintro ⟨unpaid, registered, activity⟩
    have member : ((world.pool.checkpoint input.env.timestamp).validators
        (validatorIndex.setWidth 256)).Registered := by
      rwa [records]
    have located := validatorGIndex_member (inside.trans_le block.validators_length)
    have verifies := verifyValidator_branch root padded inside
    have room := @room_for_balance B G _ { world.pool with transient := .empty } gated (tidy.later later)
    have updatable : Updatable input.env input.call.msg ({ world.pool with transient := .empty } : Pool B G)
        (validatorIndex.setWidth 256) block.validators[validatorIndex.toNat] := ⟨unpaid, registered, activity⟩
    rw [received_unpaid unpaid]
    apply updateValidator_of_updatable updatable opens located verifies
    · intro settled
      exact updateActive_of_ready ready member settled room
    · intro recipient
      exact internalExit_of_run run later accepts registered recipient

end Blocks

namespace Sample

/-- The validator 5 proposes the block, the fees go to the address, and six validators are listed. -/
def block (feeRecipient : Address) : BeaconBlock Term :=
  .ofContents 5 feeRecipient (List.replicate 6 (.sample 32000000000 1000000)) (by decide) (by decide)

/-- The owner sends the message together with the ETH. -/
def ask (time : Uint64) (feeRecipient : Address) (value : ℕ) (message : Message Term) : Input Term where
  env := .answering time time ((block feeRecipient).node 1)
  call := ownerCall value message []
  fresh := true

theorem ask_presents {world : SampleWorld} {time : Uint64} {feeRecipient : Address} {value : ℕ}
    {message : Message Term} (later : world.now ≤ time.toNat) :
    Presents world (block feeRecipient) (ask time feeRecipient value message) time :=
  ⟨later, Env.answering_beaconRoots _ _ _, fun _ _ _ => rfl⟩

/-- These are the helpers of the two positions. -/
def helpers : List ℕ := [6432, 3217, 1609, 805, 403, 200, 101, 51, 24, 13, 8, 7, 5]

theorem helpers_built : getHelperIndices [PROPOSER_INDEX, FEE_RECIPIENT] = .ok helpers := by decide +kernel

def blockJoin : Input Term :=
  ask 1700000100 0xabc BOND (.register 5 (branch (block 0xabc).node (memberIndex 5)) (.sample 32000000000 1000000)
    1700000100)

def blockClaim : Input Term :=
  ask 1701814600 0xabc 0 (.withdraw [PROPOSER_INDEX, FEE_RECIPIENT] (helpers.map (block 0xabc).node) 5 1701814600)

def blockSlash : Input Term :=
  ask 1701814600 0xaa 0 (.slashBadFeeRecipient [PROPOSER_INDEX, FEE_RECIPIENT] (helpers.map (block 0xaa).node) 5
    0xaa 1701814600)

def blockUpdate : Input Term :=
  ask 1703629000 0xabc 0 (.updateValidator 5 (branch (block 0xabc).node (memberIndex 5))
    (.sample 32000000000 1000000) 1703629000)

end Sample

/-- The validator 5 of the block registers in the fresh pool. -/
theorem block_registers : ∃ after, Sample.blockJoin.call.execute Sample.blockJoin.env
    (SampleWorld.deployed.pool.begin Sample.blockJoin.fresh) = .ok after :=
  (honest_registration (.start SampleWorld.deployed_deployed) (Sample.ask_presents (by decide))
    (by decide : (5 : Uint64).toNat < (Sample.block 0xabc).validators.length) rfl).mpr
    ⟨rfl, by decide, by decide +kernel, by decide⟩

/-- The settled validator withdraws with the block that it has proposed. -/
theorem block_withdraws : ∃ after, Sample.blockClaim.call.execute Sample.blockClaim.env
    (Sample.settled.pool.begin Sample.blockClaim.fresh) = .ok after :=
  (honest_withdrawal (Sample.settled_run ⟨Sample.join_succeeds, rfl⟩ ⟨Sample.settle_succeeds, rfl⟩)
    (Sample.ask_presents (by decide +kernel)) rfl rfl (by decide +kernel) (by decide +kernel)
    Sample.helpers_built rfl).mpr
    ⟨rfl, by decide +kernel, by decide +kernel, by decide +kernel, by decide +kernel, by decide +kernel⟩

/-- After its withdrawal in place the validator is slashed for the fees of its block. -/
theorem block_slashes : ∃ after, Sample.blockSlash.call.execute Sample.blockSlash.env
    (Sample.inPlace.pool.begin Sample.blockSlash.fresh) = .ok after :=
  (honest_slashing Sample.inPlace_met (Sample.ask_presents (by decide +kernel)) rfl rfl Sample.helpers_built rfl).mpr
    ⟨rfl, by decide +kernel, by decide +kernel⟩

/-- The next rebalance settles the record, and the validator updates it again. -/
theorem block_updates : ∃ after, Sample.blockUpdate.call.execute Sample.blockUpdate.env
    (Sample.inPlace.pool.begin Sample.blockUpdate.fresh) = .ok after :=
  (honest_update Sample.inPlace_met (Sample.ask_presents (by decide +kernel)) rfl rfl
    (by decide : (5 : Uint64).toNat < (Sample.block 0xabc).validators.length) rfl).mpr
    ⟨rfl, by decide +kernel, true, by decide +kernel, fun _ => by decide +kernel⟩

end SmoothlyPool
