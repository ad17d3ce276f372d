import SmoothlyPool.Proof.Pool.Effect

namespace SmoothlyPool

open Checked Pool

variable {B : Type} {G : ReentrancyGuard}

/-- A message asks for an operation.
An update asks for one of two operations, and the record of the beacon chain decides. -/
inductive Performs (env : Env B) : Message B → Books.Operation → Prop
  | receive : Performs env .receive .hold
  | donateETH : Performs env .donateETH .hold
  | rebalance : Performs env .rebalance .settle
  | register {validatorIndex : Uint64} {validatorProof : List B} {validator : BeaconChainValidator}
      {ts : Uint64} {withdrawal : Address} :
      Performs env (.register validatorIndex validatorProof validator ts)
        (.enrol (validatorIndex.setWidth 256) validator.effectiveBalance withdrawal)
  | withdraw {indices : List ℕ} {proof : List B} {validatorIndex : Word} {timestamp : Uint64} :
      Performs env (.withdraw indices proof validatorIndex timestamp) (.claim validatorIndex)
  | update {validatorIndex : Uint64} {validatorProof : List B} {validator : BeaconChainValidator}
      {ts : Uint64} (active : BeaconOracle.isActiveValidator env validator = .ok true) :
      Performs env (.updateValidator validatorIndex validatorProof validator ts)
        (.bank (validatorIndex.setWidth 256) validator.effectiveBalance)
  | retire {validatorIndex : Uint64} {validatorProof : List B} {validator : BeaconChainValidator}
      {ts : Uint64} (inactive : BeaconOracle.isActiveValidator env validator = .ok false) :
      Performs env (.updateValidator validatorIndex validatorProof validator ts)
        (.leave (validatorIndex.setWidth 256))
  | slash {indices : List ℕ} {proof : List B} {validatorIndex : Word} {feeRecipient : Address}
      {timestamp : Uint64} :
      Performs env (.slashBadFeeRecipient indices proof validatorIndex feeRecipient timestamp)
        (.leave validatorIndex)
  | exit {validatorIndex : Word} : Performs env (.exit validatorIndex) (.leave validatorIndex)

/-- This is what an operation does to the pool after the ETH of the call has arrived. -/
inductive Effect (timestamp : ℕ) (msg : Msg) (callback : Callback B G) (s : Pool B G) :
    Books.Operation → Pool B G → Prop
  | hold : Effect timestamp msg callback s .hold s
  | settle (opens : s.books.Opens timestamp) :
      Effect timestamp msg callback s .settle (s.checkpoint timestamp)
  | enrol {key : Word} {effectiveBalance : Uint64} {withdrawal : Address} {next : Books}
      (opens : s.books.Opens timestamp) (bonded : msg.value = BOND)
      (action : Books.Action timestamp (s.books.checkpoint timestamp)
        (.enrol key effectiveBalance withdrawal) next) :
      Effect timestamp msg callback s (.enrol key effectiveBalance withdrawal)
        { s.withBooks next with totalBond := s.totalBond + BOND }
  | bank {key : Word} {effectiveBalance : Uint64} {next : Books} (opens : s.books.Opens timestamp)
      (action : Books.Action timestamp (s.books.checkpoint timestamp) (.bank key effectiveBalance) next) :
      Effect timestamp msg callback s (.bank key effectiveBalance) (s.withBooks next)
  | claim {key : Word} {c paid : Pool B G} {share eth : ℕ} (map : HashMap B)
      (opens : s.books.Opens timestamp)
      (settles : c = { s.checkpoint timestamp with transient := map })
      (registered : (c.validators key).Registered)
      (shared : share = (c.validators key).claimable c.lastRebalance)
      (enough : share ≤ c.smooths) (solvent : c.totalBond ≤ c.balance)
      (priced : eth = share * BPS / c.smooths * (c.balance - c.totalBond) / BPS)
      (sent : PaysOut callback (c.validators key).withdrawal eth c (c.consume share) paid) :
      Effect timestamp msg callback s (.claim key) (paid.restart key)
  | leave {key : Word} {recipient : Address} {c paid : Pool B G} (map : HashMap B)
      (opens : s.books.Opens timestamp)
      (settles : c = { s.checkpoint timestamp with transient := map })
      (present : (c.validators key).Registered ∨ (c.validators key).withdrawal ≠ 0)
      (releasable : c.books.Releasable (c.validators key))
      (bonded : (c.validators key).bond ≤ c.totalBond)
      (sent : PaysOut callback recipient (c.validators key).bond c (c.release (c.validators key)) paid) :
      Effect timestamp msg callback s (.leave key) (paid.remove key)

theorem getEpoch_genesis {timestamp epoch : ℕ} (success : BeaconOracle.getEpoch timestamp = .ok epoch) :
    BeaconOracle.BEACON_GENESIS ≤ timestamp := by
  simp only [BeaconOracle.getEpoch, bind_eq_ok, sub_eq_ok] at success
  obtain ⟨_, ⟨late, _⟩, _⟩ := success
  exact late

theorem isActiveValidator_genesis {env : Env B} {validator : BeaconChainValidator} {active : Bool}
    (success : BeaconOracle.isActiveValidator env validator = .ok active) :
    BeaconOracle.BEACON_GENESIS ≤ env.timestamp := by
  simp only [BeaconOracle.isActiveValidator, bind_eq_ok] at success
  obtain ⟨epoch, counted, _⟩ := success
  exact getEpoch_genesis counted

theorem setWidth_toNat_lt (validatorIndex : Uint64) :
    (validatorIndex.setWidth 256).toNat < 2 ^ 64 := by
  rw [BitVec.toNat_setWidth]
  exact lt_of_le_of_lt (Nat.mod_le _ _) validatorIndex.isLt

section Functions

variable {msg : Msg} {callback : Callback B G} {s r : Pool B G}

theorem rebalance_ok {env : Env B} (success : s.rebalance env msg = .ok r) :
    Effect env.timestamp msg callback s .settle r := by
  simp only [rebalance, nonPayable, bind_eq_ok, require_eq_ok] at success
  obtain ⟨_, _, settles⟩ := success
  obtain ⟨opens, rfl⟩ := internalRebalance_eq_ok.mp settles
  exact .settle opens

theorem exit_ok {env : Env B} {key : Word} (success : s.exit env msg callback key = .ok r) :
    Effect env.timestamp msg callback s (.leave key) r := by
  simp only [exit, nonPayable, bind_eq_ok, require_eq_ok] at success
  obtain ⟨_, _, c, settles, _, owner, exits⟩ := success
  obtain ⟨opens, rfl⟩ := internalRebalance_eq_ok.mp settles
  obtain ⟨releasable, bonded, paid, sent, rfl⟩ := internalExit_ok exits
  exact .leave s.transient opens rfl (.inr (owner ▸ msg.sender_ne_zero)) releasable bonded sent

theorem updateActive_ok {env : Env B} {key : Word} {validator : BeaconChainValidator}
    (success : s.updateActive env key validator = .ok r) (registered : (s.validators key).Registered) :
    ∃ next, Books.Action env.timestamp s.books (.bank key validator.effectiveBalance) next ∧
      r = s.withBooks next := by
  simp only [updateActive, bind_eq_ok, require_eq_ok, sub_eq_ok, mul_eq_ok, add_eq_ok] at success
  obtain ⟨_, settled, _, ⟨_, rfl⟩, _, ⟨_, rfl⟩, _, ⟨covered, rfl⟩, _, ⟨_, rfl⟩, allocates⟩ := success
  obtain ⟨inside, rfl⟩ := allocateSmooths_ok allocates
  exact ⟨_, .bank registered (Nat.lt_of_not_le settled) covered inside, rfl⟩

variable [Bytes32 B] [DecidableEq B]

theorem register_ok {env : Env B} {validatorIndex : Uint64} {validatorProof : List B}
    {validator : BeaconChainValidator} {ts : Uint64}
    (success : s.register env msg validatorIndex validatorProof validator ts = .ok r) :
    ∃ withdrawal, Effect env.timestamp msg callback s
      (.enrol (validatorIndex.setWidth 256) validator.effectiveBalance withdrawal) r := by
  simp only [register, bind_eq_ok, require_eq_ok, add_eq_ok] at success
  obtain ⟨c, settles, _, bonded, _, vacant, _, _, withdrawal, _, active, activated, _, _, _, _, _,
    ⟨_, rfl⟩, allocates⟩ := success
  obtain ⟨opens, rfl⟩ := internalRebalance_eq_ok.mp settles
  obtain ⟨inside, rfl⟩ := allocateSmooths_ok allocates
  have vacant : ¬ ((s.books.checkpoint env.timestamp).validators
      (validatorIndex.setWidth 256)).Registered := by
    intro registered
    exact vacant (Nat.pos_of_ne_zero registered)
  exact ⟨withdrawal, .enrol opens bonded (.enrol vacant (setWidth_toNat_lt validatorIndex)
    (isActiveValidator_genesis activated) inside)⟩

theorem updateValidator_ok {env : Env B} {validatorIndex : Uint64} {validatorProof : List B}
    {validator : BeaconChainValidator} {ts : Uint64}
    (success : s.updateValidator env msg callback validatorIndex validatorProof validator ts = .ok r) :
    (BeaconOracle.isActiveValidator env validator = .ok true ∧
      Effect env.timestamp msg callback s
        (.bank (validatorIndex.setWidth 256) validator.effectiveBalance) r) ∨
    (BeaconOracle.isActiveValidator env validator = .ok false ∧
      Effect env.timestamp msg callback s (.leave (validatorIndex.setWidth 256)) r) := by
  simp only [updateValidator, nonPayable, bind_eq_ok, require_eq_ok] at success
  obtain ⟨_, _, c, settles, _, registered, _, _, _, _, active, activated, rest⟩ := success
  obtain ⟨opens, rfl⟩ := internalRebalance_eq_ok.mp settles
  by_cases current : active = true
  · subst current
    obtain ⟨next, action, rfl⟩ := updateActive_ok ((if_pos rfl).symm.trans rest) registered
    exact .inl ⟨activated, .bank opens action⟩
  · rw [if_neg current] at rest
    obtain rfl := Bool.eq_false_of_not_eq_true current
    obtain ⟨releasable, bonded, paid, sent, rfl⟩ := internalExit_ok rest
    exact .inr ⟨activated, .leave s.transient opens rfl (.inl registered) releasable bonded sent⟩

theorem slashBadFeeRecipient_ok {env : Env B} {indices : List ℕ} {proof : List B} {key : Word}
    {feeRecipient : Address} {timestamp : Uint64}
    (success : s.slashBadFeeRecipient env msg callback indices proof key feeRecipient timestamp = .ok r) :
    Effect env.timestamp msg callback s (.leave key) r := by
  simp only [slashBadFeeRecipient, nonPayable, bind_eq_ok, require_eq_ok] at success
  obtain ⟨_, _, c, settles, _, registered, ⟨_, map⟩, _, _, _, exits⟩ := success
  obtain ⟨opens, rfl⟩ := internalRebalance_eq_ok.mp settles
  obtain ⟨releasable, bonded, paid, sent, rfl⟩ := internalExit_ok exits
  exact .leave map opens rfl (.inl registered) releasable bonded sent

theorem withdraw_ok {env : Env B} {indices : List ℕ} {proof : List B} {key : Word} {timestamp : Uint64}
    (success : s.withdraw env msg callback indices proof key timestamp = .ok r) :
    Effect env.timestamp msg callback s (.claim key) r := by
  simp only [withdraw, nonPayable, bind_eq_ok, require_eq_ok] at success
  obtain ⟨_, _, c, settles, _, registered, _, _, _, _, _, _, ⟨_, map⟩, _, ⟨eth, paid⟩, withdraws, same⟩ :=
    success
  obtain ⟨opens, rfl⟩ := internalRebalance_eq_ok.mp settles
  obtain ⟨enough, solvent, priced, sent⟩ := internalWithdraw_ok withdraws
  obtain rfl := Except.ok.inj same
  exact .claim map opens rfl registered rfl enough solvent priced sent

/-- The effect of a successful call is the effect of the operation that its message asks for. -/
theorem dispatch_ok {env : Env B} {message : Message B}
    (success : dispatch env msg callback s message = .ok r) :
    ∃ operation, Performs env message operation ∧ Effect env.timestamp msg callback s operation r := by
  cases message with
  | receive =>
      obtain rfl := Except.ok.inj success
      exact ⟨_, .receive, .hold⟩
  | donateETH =>
      obtain rfl := Except.ok.inj success
      exact ⟨_, .donateETH, .hold⟩
  | register validatorIndex validatorProof validator ts =>
      obtain ⟨withdrawal, effect⟩ := register_ok success
      exact ⟨_, .register, effect⟩
  | withdraw indices proof validatorIndex timestamp => exact ⟨_, .withdraw, withdraw_ok success⟩
  | updateValidator validatorIndex validatorProof validator ts =>
      rcases updateValidator_ok success with ⟨active, effect⟩ | ⟨inactive, effect⟩
      · exact ⟨_, .update active, effect⟩
      · exact ⟨_, .retire inactive, effect⟩
  | slashBadFeeRecipient indices proof validatorIndex feeRecipient timestamp =>
      exact ⟨_, .slash, slashBadFeeRecipient_ok success⟩
  | exit validatorIndex => exact ⟨_, .exit, exit_ok success⟩
  | rebalance => exact ⟨_, .rebalance, rebalance_ok success⟩

end Functions

end SmoothlyPool
