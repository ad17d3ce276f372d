import SmoothlyPool.Proof.Pool.Kept
import Mathlib.Logic.Relation

namespace SmoothlyPool

open Checked Pool Transition

variable {B : Type} {G : ReentrancyGuard}

/-- Only the withdrawal address of a record exits. -/
theorem exit_justified {env : Env B} {msg : Msg} {callback : Callback B G} {s r : Pool B G} {key : Word}
    (success : s.exit env msg callback key = .ok r) : msg.sender = (s.validators key).withdrawal := by
  simp only [exit, nonPayable, bind_eq_ok, require_eq_ok] at success
  obtain ⟨_, _, c, settles, _, owner, _⟩ := success
  obtain ⟨_, rfl⟩ := internalRebalance_eq_ok.mp settles
  rwa [checkpoint_validators] at owner

/-- A claim is for a registered validator. -/
theorem Effect.claimant {timestamp : ℕ} {msg : Msg} {callback : Callback B G} {s r : Pool B G} {key : Word}
    (effect : Effect timestamp msg callback s (.claim key) r) : (s.validators key).Registered := by
  cases effect with
  | claim map opens settles registered shared enough solvent priced sent =>
      subst settles
      rwa [show ({ s.checkpoint timestamp with transient := map } : Pool B G).validators = s.validators from
        checkpoint_validators timestamp s] at registered

/-- A removal ends with the deletion of the record. -/
theorem Effect.removed {timestamp : ℕ} {msg : Msg} {callback : Callback B G} {s r : Pool B G} {key : Word}
    (effect : Effect timestamp msg callback s (.leave key) r) : r.validators key = .unset := by
  cases effect with
  | leave map opens settles present releasable bonded sent => exact Function.update_self ..

variable [Bytes32 B] [DecidableEq B]

/-- The pool has accepted a record of the beacon chain for the index of the validator. -/
def Attests (env : Env B) (key : Word) (record : BeaconChainValidator) : Prop :=
  ∃ (validatorIndex : Uint64) (gIndex : ℕ) (proof : List B) (ts : Uint64) (verified : Bool),
    key = validatorIndex.setWidth 256 ∧ validatorGIndex validatorIndex = .ok gIndex ∧
    BeaconOracle.verifyValidator env proof record gIndex ts = .ok verified

/-- The pool has accepted a block with this proposer and this fee recipient in its transaction. -/
def Proposed (env : Env B) (s : Pool B G) (indices : List ℕ) (proof : List B) (key : Word) (feeRecipient : Address)
    (timestamp : Uint64) : Prop :=
  ∃ result, BeaconOracle.verifyFeeRecipient env indices proof key feeRecipient timestamp s.transient = .ok result

/-- This is the evidence that a message has to bring for its operation. -/
inductive Justified (env : Env B) (msg : Msg) (s : Pool B G) : Message B → Books.Operation → Prop
  | receive : Justified env msg s .receive .hold
  | donateETH : Justified env msg s .donateETH .hold
  | rebalance : Justified env msg s .rebalance .settle
  | register {validatorIndex : Uint64} {validatorProof : List B} {validator : BeaconChainValidator} {ts : Uint64}
      {withdrawal : Address} (attested : Attests env (validatorIndex.setWidth 256) validator)
      (active : BeaconOracle.isActiveValidator env validator = .ok true)
      (address : BeaconOracle.withdrawalToAddress validator.withdrawalCredentials = .ok withdrawal) :
      Justified env msg s (.register validatorIndex validatorProof validator ts)
        (.enrol (validatorIndex.setWidth 256) validator.effectiveBalance withdrawal)
  | withdraw {indices : List ℕ} {proof : List B} {validatorIndex : Word} {timestamp : Uint64}
      (proposed : Proposed env s indices proof validatorIndex s.self timestamp) :
      Justified env msg s (.withdraw indices proof validatorIndex timestamp) (.claim validatorIndex)
  | update {validatorIndex : Uint64} {validatorProof : List B} {validator : BeaconChainValidator} {ts : Uint64}
      (attested : Attests env (validatorIndex.setWidth 256) validator)
      (active : BeaconOracle.isActiveValidator env validator = .ok true) :
      Justified env msg s (.updateValidator validatorIndex validatorProof validator ts)
        (.bank (validatorIndex.setWidth 256) validator.effectiveBalance)
  | retire {validatorIndex : Uint64} {validatorProof : List B} {validator : BeaconChainValidator} {ts : Uint64}
      (attested : Attests env (validatorIndex.setWidth 256) validator)
      (inactive : BeaconOracle.isActiveValidator env validator = .ok false) :
      Justified env msg s (.updateValidator validatorIndex validatorProof validator ts)
        (.leave (validatorIndex.setWidth 256))
  | slash {indices : List ℕ} {proof : List B} {validatorIndex : Word} {feeRecipient : Address}
      {timestamp : Uint64} (proposed : Proposed env s indices proof validatorIndex feeRecipient timestamp)
      (wrong : feeRecipient ≠ s.self) :
      Justified env msg s (.slashBadFeeRecipient indices proof validatorIndex feeRecipient timestamp)
        (.leave validatorIndex)
  | exit {validatorIndex : Word} (owner : msg.sender = (s.validators validatorIndex).withdrawal) :
      Justified env msg s (.exit validatorIndex) (.leave validatorIndex)

section Evidence

variable {env : Env B} {msg : Msg} {s r : Pool B G} {message : Message B} {operation : Books.Operation}

/-- The evidence is about the address of the pool, its records and its transient storage only. -/
theorem Justified.congr (justified : Justified env msg s message operation) (self : r.self = s.self)
    (records : r.validators = s.validators) (transient : r.transient = s.transient) :
    Justified env msg r message operation := by
  cases justified with
  | receive => exact .receive
  | donateETH => exact .donateETH
  | rebalance => exact .rebalance
  | register attested active address => exact .register attested active address
  | withdraw proposed =>
      obtain ⟨result, accepted⟩ := proposed
      rw [← self, ← transient] at accepted
      exact .withdraw ⟨result, accepted⟩
  | update attested active => exact .update attested active
  | retire attested inactive => exact .retire attested inactive
  | slash proposed wrong =>
      obtain ⟨result, accepted⟩ := proposed
      rw [← transient] at accepted
      exact .slash ⟨result, accepted⟩ (self ▸ wrong)
  | exit owner => exact .exit (records ▸ owner)

theorem Justified.performs (justified : Justified env msg s message operation) :
    Performs env message operation := by
  cases justified with
  | receive => exact .receive
  | donateETH => exact .donateETH
  | rebalance => exact .rebalance
  | register attested active address => exact .register
  | withdraw proposed => exact .withdraw
  | update attested active => exact .update active
  | retire attested inactive => exact .retire inactive
  | slash proposed wrong => exact .slash
  | exit owner => exact .exit

end Evidence

section Functions

variable {env : Env B} {msg : Msg} {callback : Callback B G} {s r : Pool B G}

/-- A registration shows an active record with an address for its withdrawals. -/
theorem register_justified {validatorIndex : Uint64} {validatorProof : List B} {record : BeaconChainValidator}
    {ts : Uint64} (success : s.register env msg validatorIndex validatorProof record ts = .ok r) :
    ∃ withdrawal, Effect env.timestamp msg callback s
        (.enrol (validatorIndex.setWidth 256) record.effectiveBalance withdrawal) r ∧
      Justified env msg s (.register validatorIndex validatorProof record ts)
        (.enrol (validatorIndex.setWidth 256) record.effectiveBalance withdrawal) := by
  simp only [register, bind_eq_ok, require_eq_ok, add_eq_ok] at success
  obtain ⟨c, settles, _, bonded, _, vacant, gIndex, located, withdrawal, address, active, activated, _,
    current, verified, accepted, _, ⟨_, rfl⟩, allocates⟩ := success
  obtain ⟨opens, rfl⟩ := internalRebalance_eq_ok.mp settles
  obtain ⟨inside, rfl⟩ := allocateSmooths_ok allocates
  have vacant : ¬ ((s.books.checkpoint env.timestamp).validators
      (validatorIndex.setWidth 256)).Registered := fun registered => vacant (Nat.pos_of_ne_zero registered)
  have accessible := isActiveValidator_genesis activated
  rw [current] at activated
  exact ⟨withdrawal, .enrol opens bonded (.enrol vacant (setWidth_toNat_lt validatorIndex) accessible inside),
    .register ⟨validatorIndex, gIndex, validatorProof, ts, verified, rfl, located, accepted⟩ activated address⟩

/-- An update shows a record, and the record decides between the two branches. -/
theorem updateValidator_justified {validatorIndex : Uint64} {validatorProof : List B}
    {record : BeaconChainValidator} {ts : Uint64}
    (success : s.updateValidator env msg callback validatorIndex validatorProof record ts = .ok r) :
    Attests env (validatorIndex.setWidth 256) record := by
  simp only [updateValidator, nonPayable, bind_eq_ok, require_eq_ok] at success
  obtain ⟨_, _, c, settles, _, registered, gIndex, located, verified, accepted, _⟩ := success
  exact ⟨validatorIndex, gIndex, validatorProof, ts, verified, rfl, located, accepted⟩

theorem withdraw_justified {indices : List ℕ} {proof : List B} {key : Word} {timestamp : Uint64}
    (success : s.withdraw env msg callback indices proof key timestamp = .ok r) :
    Proposed env s indices proof key s.self timestamp := by
  simp only [withdraw, nonPayable, bind_eq_ok, require_eq_ok] at success
  obtain ⟨_, _, c, settles, _, _, _, _, _, _, _, _, result, accepted, _⟩ := success
  obtain ⟨_, rfl⟩ := internalRebalance_eq_ok.mp settles
  exact ⟨result, accepted⟩

theorem slashBadFeeRecipient_justified {indices : List ℕ} {proof : List B} {key : Word}
    {feeRecipient : Address} {timestamp : Uint64}
    (success : s.slashBadFeeRecipient env msg callback indices proof key feeRecipient timestamp = .ok r) :
    Proposed env s indices proof key feeRecipient timestamp ∧ feeRecipient ≠ s.self := by
  simp only [slashBadFeeRecipient, nonPayable, bind_eq_ok, require_eq_ok] at success
  obtain ⟨_, _, c, settles, _, _, result, accepted, _, wrong, _⟩ := success
  obtain ⟨_, rfl⟩ := internalRebalance_eq_ok.mp settles
  exact ⟨⟨result, accepted⟩, wrong⟩

/-- A successful call has the evidence for its operation. -/
theorem dispatch_justified {message : Message B} (success : dispatch env msg callback s message = .ok r) :
    ∃ operation, Effect env.timestamp msg callback s operation r ∧ Justified env msg s message operation := by
  cases message with
  | receive =>
      obtain rfl := Except.ok.inj success
      exact ⟨_, .hold, .receive⟩
  | donateETH =>
      obtain rfl := Except.ok.inj success
      exact ⟨_, .hold, .donateETH⟩
  | register validatorIndex validatorProof record ts =>
      obtain ⟨withdrawal, effect, justified⟩ := register_justified success
      exact ⟨_, effect, justified⟩
  | withdraw indices proof validatorIndex timestamp =>
      exact ⟨_, withdraw_ok success, .withdraw (withdraw_justified success)⟩
  | updateValidator validatorIndex validatorProof record ts =>
      have attested := updateValidator_justified success
      rcases updateValidator_ok success with ⟨active, effect⟩ | ⟨inactive, effect⟩
      · exact ⟨_, effect, .update attested active⟩
      · exact ⟨_, effect, .retire attested inactive⟩
  | slashBadFeeRecipient indices proof validatorIndex feeRecipient timestamp =>
      obtain ⟨proposed, wrong⟩ := slashBadFeeRecipient_justified success
      exact ⟨_, slashBadFeeRecipient_ok success, .slash proposed wrong⟩
  | exit validatorIndex => exact ⟨_, exit_ok success, .exit (exit_justified success)⟩
  | rebalance => exact ⟨_, rebalance_ok success, .rebalance⟩

end Functions

/-- This is one part of a call with the operation, or of a call that its recipient makes.
A claim and a removal write the pool before the recipient runs, and they finish the record afterwards. -/
inductive Part (env : Env B) (operation : Books.Operation) : Pool B G → Pool B G → Prop
  | receive {s : Pool B G} (amount : ℕ) : Part env operation s { s with balance := s.balance + amount }
  | scratch {s : Pool B G} (status : G.Status) (map : HashMap B) :
      Part env operation s { s with status := status, transient := map }
  | checkpoint {s : Pool B G} (opens : s.books.Opens env.timestamp) :
      Part env operation s (s.checkpoint env.timestamp)
  | enrol {s : Pool B G} {key : Word} {record : BeaconChainValidator} {withdrawal : Address} {next : Books}
      (attested : Attests env key record) (active : BeaconOracle.isActiveValidator env record = .ok true)
      (address : BeaconOracle.withdrawalToAddress record.withdrawalCredentials = .ok withdrawal)
      (action : Books.Action env.timestamp s.books (.enrol key record.effectiveBalance withdrawal) next) :
      Part env operation s
        { s.withBooks next with totalBond := s.totalBond + BOND, balance := s.balance + BOND }
  | bank {s : Pool B G} {key : Word} {record : BeaconChainValidator} {next : Books}
      (attested : Attests env key record) (active : BeaconOracle.isActiveValidator env record = .ok true)
      (action : Books.Action env.timestamp s.books (.bank key record.effectiveBalance) next) :
      Part env operation s (s.withBooks next)
  | claim {s : Pool B G} {key : Word} {share eth balance : ℕ} (own : operation = .claim key)
      (registered : (s.validators key).Registered)
      (shared : share = (s.validators key).claimable s.lastRebalance) (enough : share ≤ s.smooths)
      (solvent : s.totalBond ≤ s.balance)
      (priced : eth = share * BPS / s.smooths * (s.balance - s.totalBond) / BPS)
      (left : balance = s.balance ∨ balance = s.balance - eth) :
      Part env operation s { s.consume share with balance := balance }
  | restart {s : Pool B G} {key : Word} (own : operation = .claim key) : Part env operation s (s.restart key)
  | release {s : Pool B G} {key : Word} {balance : ℕ} (own : operation = .leave key)
      (releasable : s.books.Releasable (s.validators key)) (bonded : (s.validators key).bond ≤ s.totalBond)
      (left : balance = s.balance ∨ balance = s.balance - (s.validators key).bond) :
      Part env operation s { s.release (s.validators key) with balance := balance }
  | remove {s : Pool B G} {key : Word} (own : operation = .leave key) : Part env operation s (s.remove key)

/-- The parts of a call lead from the pool before it to the pool after it. -/
def Parts (env : Env B) (operation : Books.Operation) : Pool B G → Pool B G → Prop :=
  Relation.ReflTransGen (Part env operation)

variable {env : Env B} {operation : Books.Operation}

/-- A property that every part keeps is kept by the call. -/
theorem Parts.invariant {s r : Pool B G} (holds : Pool B G → Prop)
    (keeps : ∀ s r, Part env operation s r → holds s → holds r) (parts : Parts env operation s r)
    (held : holds s) : holds r := by
  induction parts with
  | refl => exact held
  | tail _ part ih => exact keeps _ _ part ih

/-- The parts of a mild call are parts of any call that it runs inside. -/
theorem Effect.parts {msg : Msg} {callback : Callback B G} {s r : Pool B G} {message : Message B}
    {inner : Books.Operation} (effect : Effect env.timestamp msg callback (s.receive msg) inner r)
    (mild : inner.Mild) (justified : Justified env msg s message inner) : Parts env operation s r := by
  cases effect with
  | hold => exact .single (.receive msg.value)
  | settle opens => exact .tail (.single (.receive msg.value)) (.checkpoint opens)
  | enrol opens bonded action =>
      cases justified with
      | register attested active address =>
          have settled : Part env operation s (s.checkpoint env.timestamp) := .checkpoint opens
          unfold Pool.receive
          rw [bonded]
          exact .tail (.single settled) (.enrol attested active address action)
  | bank opens action =>
      cases justified with
      | update attested active =>
          have received : Part env operation s (s.receive msg) := .receive msg.value
          have settled : Part env operation (s.receive msg) ((s.receive msg).checkpoint env.timestamp) :=
            .checkpoint opens
          exact .tail (.tail (.single received) settled) (.bank attested active action)
  | claim map opens settles registered shared enough solvent priced sent => exact absurd rfl (mild _).1
  | leave map opens settles present releasable bonded sent => exact absurd rfl (mild _).2

/-- The calls of a recipient are parts of the call that pays it. -/
theorem executeAll_parts {s : Pool B G} (calls : List (Call B)) (locked : s.status = G.entered) :
    (executeAll env calls s).status = G.entered ∧ Parts env operation s (executeAll env calls s) := by
  refine executeAll_invariant (fun r => r.status = G.entered ∧ Parts env operation s r) calls s ?_
    ⟨locked, .refl⟩
  rintro call _ r next ⟨closed, earlier⟩ success
  rw [Call.execute_eq] at success
  obtain ⟨inner, effect, justified⟩ := dispatch_justified success
  have mild : inner.Mild := by
    apply effect.mild
    exact closed
  have later : Parts env operation r next := effect.parts mild (justified.congr rfl rfl rfl)
  exact ⟨(effect.status mild).trans closed, earlier.trans later⟩

/-- The head of a function receives the ETH, rebalances, and takes the lock. -/
theorem head_parts (msg : Msg) (map : HashMap B) {s : Pool B G} (opens : (s.receive msg).books.Opens env.timestamp) :
    Parts env operation s
      { (s.receive msg).checkpoint env.timestamp with status := G.entered, transient := map } :=
  .tail (.tail (.single (.receive msg.value)) (.checkpoint opens)) (.scratch G.entered map)

/-- A payment runs its recipient and releases the lock. -/
theorem window_parts {s prepared : Pool B G} (calls : List (Call B)) (locked : prepared.status = G.entered)
    (earlier : Parts env operation s prepared) :
    Parts env operation s (nonReentrantAfter (executeAll env calls prepared)) := by
  have window : Parts env operation prepared (executeAll env calls prepared) := (executeAll_parts calls locked).2
  exact .tail (earlier.trans window) (.scratch _ _)

/-- Every call on the idle pool is a sequence of parts of its operation. -/
theorem Effect.all_parts {msg : Msg} {call : Call B} {s r : Pool B G} {message : Message B}
    (idle : s.status = G.notEntered)
    (effect : Effect env.timestamp msg (call.callback env) (s.receive msg) operation r)
    (justified : Justified env msg s message operation) : Parts env operation s r := by
  by_cases mild : operation.Mild
  · exact effect.parts mild justified
  cases effect with
  | hold => exact absurd (fun key => ⟨nofun, nofun⟩) mild
  | settle opens => exact absurd (fun key => ⟨nofun, nofun⟩) mild
  | enrol opens bonded action => exact absurd (fun key => ⟨nofun, nofun⟩) mild
  | bank opens action => exact absurd (fun key => ⟨nofun, nofun⟩) mild
  | @claim key c after share eth map opens settles registered shared enough solvent priced sent =>
      have unlocked : c.status = G.notEntered := by rw [settles]; exact idle
      obtain ⟨_, calls, balance, left, rfl⟩ := sent.window unlocked
      have spent : balance = c.balance ∨ balance = c.balance - eth := left.imp And.right And.right
      have head : Parts env (.claim key) s { c with status := G.entered } := by
        rw [settles]
        exact head_parts msg map opens
      let held : Pool B G := { c with status := G.entered }
      have paid : Part env (.claim key) held { held.consume share with balance := balance } :=
        .claim rfl registered shared enough solvent priced spent
      exact .tail (window_parts calls rfl (.tail head paid)) (.restart rfl)
  | @leave key recipient c after map opens settles present releasable bonded sent =>
      have unlocked : c.status = G.notEntered := by rw [settles]; exact idle
      obtain ⟨_, calls, balance, left, rfl⟩ := sent.window unlocked
      have spent : balance = c.balance ∨ balance = c.balance - (c.validators key).bond :=
        left.imp And.right And.right
      have head : Parts env (.leave key) s { c with status := G.entered } := by
        rw [settles]
        exact head_parts msg map opens
      let held : Pool B G := { c with status := G.entered }
      have paid : Part env (.leave key) held { held.release (held.validators key) with balance := balance } :=
        .release rfl releasable bonded spent
      exact .tail (window_parts calls rfl (.tail head paid)) (.remove rfl)

/-- A successful move has evidence for its operation, and it is a sequence of parts of the operation, whatever
the recipient of ETH calls. -/
structure Carries (move : Move (World B G) (Input B)) (operation : Books.Operation) : Prop where
  justified : Justified move.label.env move.label.call.msg (move.before.pool.begin move.label.fresh)
    move.label.call.message operation
  parts : Parts move.label.env operation move.before.pool move.after.pool
  claimant : ∀ key, operation = .claim key → (move.before.pool.validators key).Registered
  removed : ∀ key, operation = .leave key → move.after.pool.validators key = .unset

theorem Succeeds.carries {move : Move (World B G) (Input B)} (succeeds : Succeeds move)
    (idle : move.before.pool.status = G.notEntered) : ∃ operation, Carries move operation := by
  obtain ⟨_, _, executes⟩ := succeeds
  rw [Call.execute_eq] at executes
  obtain ⟨operation, effect, justified⟩ := dispatch_justified executes
  have unlocked := (begin_status move.label.fresh move.before.pool).trans idle
  have begun : Parts move.label.env operation move.before.pool (move.before.pool.begin move.label.fresh) := by
    obtain ⟨map, same⟩ := move.before.pool.begin_eq move.label.fresh
    rw [same]
    exact .single (.scratch move.before.pool.status map)
  have records := congrArg Books.validators (begin_books move.label.fresh move.before.pool)
  have evidence : Justified move.label.env move.label.call.msg (move.before.pool.begin move.label.fresh)
      move.label.call.message operation := justified.congr rfl rfl rfl
  have parts : Parts move.label.env operation (move.before.pool.begin move.label.fresh) move.after.pool :=
    Effect.all_parts unlocked effect evidence
  refine ⟨operation, evidence, begun.trans parts, ?_, ?_⟩
  · rintro key rfl
    rw [← books_validators, ← records]
    exact effect.claimant
  · rintro key rfl
    exact effect.removed

section Runs

variable {step : Move (World B G) (Input B) → Prop} {trace : List (Move (World B G) (Input B))}
  {world : World B G}

/-- The lock is free between two calls. -/
theorem run_idle (run : Run Deployed Succeeds trace world) : world.pool.status = G.notEntered := by
  have kept : Books.Kept fun _ => True := by constructor <;> intros <;> trivial
  exact (kept.run (fun _ _ => trivial) run).1

/-- A property that holds after one move of a run holds at its end when every later move keeps it. -/
theorem since_moves (holds : Pool B G → Prop) {newer older : List (Move (World B G) (Input B))}
    {first : Move (World B G) (Input B)} (run : Run Deployed Succeeds (newer ++ first :: older) world)
    (starts : holds first.after.pool)
    (keeps : ∀ move ∈ newer, ∀ trace, Run Deployed Succeeds trace move.before → Succeeds move →
      holds move.before.pool → holds move.after.pool) : holds world.pool := by
  induction newer generalizing world with
  | nil =>
      cases run with
      | next _ _ _ => exact starts
  | cons newest rest ih =>
      cases run with
      | next _ earlier succeeds =>
          have held := ih earlier fun move member => keeps move (.tail newest member)
          exact keeps newest List.mem_cons_self _ earlier succeeds held

end Runs

/-- A part keeps the time of the last rebalance or moves it to the present when the period is over. -/
theorem Part.rebalance {s r : Pool B G} (part : Part env operation s r) :
    r.lastRebalance = s.lastRebalance ∨
    REBALANCE_PERIOD < env.timestamp - s.lastRebalance ∧ r.lastRebalance = env.timestamp := by
  cases part with
  | receive amount => exact .inl rfl
  | scratch status map => exact .inl rfl
  | checkpoint opens =>
      by_cases due : REBALANCE_PERIOD < env.timestamp - s.lastRebalance
      · refine .inr ⟨due, ?_⟩
        rw [Pool.checkpoint, Books.checkpoint_due due]
        rfl
      · left
        rw [Pool.checkpoint, Books.checkpoint_early due]
        rfl
  | enrol attested active address action => cases action; exact .inl rfl
  | bank attested active action => cases action; exact .inl rfl
  | claim own registered shared enough solvent priced left => exact .inl rfl
  | restart own => exact .inl rfl
  | release own releasable bonded left => exact .inl (Books.release_lastRebalance _ _)
  | remove own => exact .inl rfl

/-- Within a call the last rebalance moves forward, up to the present at most. -/
theorem Part.clock {s r : Pool B G} (part : Part env operation s r) (current : s.lastRebalance ≤ env.timestamp) :
    s.lastRebalance ≤ r.lastRebalance ∧ r.lastRebalance ≤ env.timestamp := by
  rcases part.rebalance with same | ⟨due, moved⟩
  · exact ⟨same.ge, same.trans_le current⟩
  · exact ⟨current.trans moved.ge, moved.le⟩

/-- A call rebalances once at most, because all its parts see one time. -/
theorem Parts.rebalance {s r : Pool B G} (parts : Parts env operation s r) :
    r.lastRebalance = s.lastRebalance ∨
    REBALANCE_PERIOD < env.timestamp - s.lastRebalance ∧ r.lastRebalance = env.timestamp := by
  induction parts with
  | refl => exact .inl rfl
  | tail _ part ih =>
      rcases ih with same | ⟨due, moved⟩ <;> rcases part.rebalance with still | ⟨again, next⟩
      · exact .inl (still.trans same)
      · exact .inr ⟨same ▸ again, next⟩
      · exact .inr ⟨due, still.trans moved⟩
      · exact .inr ⟨due, next⟩

/-- This is what a part of a call makes of the record of one validator. -/
inductive Rewritten (env : Env B) (operation : Books.Operation) (key : Word) (lastRebalance : ℕ)
    (before : Validator) : Validator → Prop
  | kept : Rewritten env operation key lastRebalance before before
  | enrolled {record : BeaconChainValidator} {withdrawal : Address} (vacant : ¬ before.Registered)
      (genesis : BeaconOracle.BEACON_GENESIS ≤ env.timestamp) (attested : Attests env key record)
      (active : BeaconOracle.isActiveValidator env record = .ok true)
      (address : BeaconOracle.withdrawalToAddress record.withdrawalCredentials = .ok withdrawal) :
      Rewritten env operation key lastRebalance before
        (before.enrol record.effectiveBalance withdrawal env.timestamp)
  | banked {record : BeaconChainValidator} (registered : before.Registered)
      (settled : before.start < lastRebalance) (attested : Attests env key record)
      (active : BeaconOracle.isActiveValidator env record = .ok true) :
      Rewritten env operation key lastRebalance before (before.bank record.effectiveBalance env.timestamp)
  | restarted (own : operation = .claim key) :
      Rewritten env operation key lastRebalance before (before.restart lastRebalance)
  | removed (own : operation = .leave key) : Rewritten env operation key lastRebalance before .unset

/-- Each part writes one record at most. -/
theorem Part.record {s r : Pool B G} (part : Part env operation s r) (key : Word) :
    Rewritten env operation key s.lastRebalance (s.validators key) (r.validators key) := by
  -- A write of another record keeps this one.
  have write {target : Word} {record : Validator}
      (records : r.validators = Function.update s.validators target record)
      (own : target = key → Rewritten env operation key s.lastRebalance (s.validators key) record) :
      Rewritten env operation key s.lastRebalance (s.validators key) (r.validators key) := by
    rw [records]
    by_cases same : target = key
    · subst same
      rw [Function.update_self]
      exact own rfl
    · rw [Function.update_of_ne (Ne.symm same)]
      exact .kept
  cases part with
  | receive amount => exact .kept
  | scratch status map => exact .kept
  | checkpoint opens =>
      rw [checkpoint_validators]
      exact .kept
  | enrol attested active address action =>
      cases action with
      | enrol vacant narrow genesis inside =>
          apply write rfl
          rintro rfl
          exact .enrolled vacant genesis attested active address
  | bank attested active action =>
      cases action with
      | bank registered settled covered inside =>
          apply write rfl
          rintro rfl
          exact .banked registered settled attested active
  | claim own registered shared enough solvent priced left => exact .kept
  | restart own =>
      apply write rfl
      rintro rfl
      exact .restarted own
  | @release target balance own releasable bonded left =>
      have records : (s.release (s.validators target)).validators = s.validators := Books.release_validators _ _
      show Rewritten env operation key s.lastRebalance (s.validators key)
        ((s.release (s.validators target)).validators key)
      rw [records]
      exact .kept
  | remove own =>
      apply write rfl
      rintro rfl
      exact .removed own

/-- The last rebalance never lies in the future. -/
theorem run_clock {trace : List (Move (World B G) (Input B))} {world : World B G}
    (run : Run Deployed Succeeds trace world) : world.pool.lastRebalance ≤ world.now := by
  induction run with
  | start deployed =>
      obtain ⟨self, balance, created⟩ := deployed
      rw [created]
      exact le_rfl
  | next move earlier succeeds ih =>
      obtain ⟨operation, carries⟩ := succeeds.carries (run_idle earlier)
      rw [succeeds.2.1]
      exact carries.parts.invariant (fun s => s.lastRebalance ≤ move.label.env.timestamp)
        (fun _ _ part current => (part.clock current).2) (ih.trans succeeds.1)

end SmoothlyPool
