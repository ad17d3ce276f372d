import SmoothlyPool.Proof.Pool.Dispatch

namespace SmoothlyPool

open Pool Transition

namespace Books

/-- Starts lie in the past and within one period of the last rebalance, and a record without a start is the
default record. -/
structure Tidy (now : ℕ) (b : Books) : Prop where
  current : b.lastRebalance ≤ now
  vacant : ∀ key, ¬ (b.validators key).Registered → b.validators key = .unset
  narrow : ∀ key, (b.validators key).Registered → key.toNat < 2 ^ 64
  opened : ∀ key, (b.validators key).Registered → 0 < b.lastRebalance
  past : ∀ key, (b.validators key).start ≤ now
  inside : ∀ key, (b.validators key).start ≤ b.lastRebalance + REBALANCE_PERIOD

theorem Tidy.congr {now : ℕ} {b next : Books} (tidy : b.Tidy now)
    (rebalanced : next.lastRebalance = b.lastRebalance) (records : next.validators = b.validators) :
    next.Tidy now := by
  obtain ⟨current, vacant, narrow, opened, past, inside⟩ := tidy
  constructor <;> simpa only [rebalanced, records]

theorem Tidy.later {now later : ℕ} {b : Books} (tidy : b.Tidy now) (after : now ≤ later) : b.Tidy later :=
  { tidy with
    current := tidy.current.trans after
    past := fun key => (tidy.past key).trans after }

/-- A record that is not the default one is registered. -/
theorem Tidy.registered {now : ℕ} {b : Books} {key : Word} (tidy : b.Tidy now)
    (present : b.validators key ≠ .unset) : (b.validators key).Registered := by
  by_contra dead
  exact present (tidy.vacant key dead)

/-- A tidy record can replace any record. -/
theorem Tidy.replace {now : ℕ} {b : Books} {key : Word} {record : Validator} (tidy : b.Tidy now)
    (vacant : ¬ record.Registered → record = .unset) (narrow : record.Registered → key.toNat < 2 ^ 64)
    (opened : record.Registered → 0 < b.lastRebalance) (past : record.start ≤ now)
    (inside : record.start ≤ b.lastRebalance + REBALANCE_PERIOD) : (b.write key record).Tidy now where
  current := tidy.current
  vacant := (Function.forall_update_iff b.validators fun _ validator =>
    ¬ validator.Registered → validator = .unset).mpr ⟨vacant, fun other _ => tidy.vacant other⟩
  narrow := (Function.forall_update_iff b.validators fun other validator =>
    validator.Registered → other.toNat < 2 ^ 64).mpr ⟨narrow, fun other _ => tidy.narrow other⟩
  opened := (Function.forall_update_iff b.validators fun _ validator =>
    validator.Registered → 0 < b.lastRebalance).mpr ⟨opened, fun other _ => tidy.opened other⟩
  past := (Function.forall_update_iff b.validators fun _ validator =>
    validator.start ≤ now).mpr ⟨past, fun other _ => tidy.past other⟩
  inside := (Function.forall_update_iff b.validators fun _ validator =>
    validator.start ≤ b.lastRebalance + REBALANCE_PERIOD).mpr ⟨inside, fun other _ => tidy.inside other⟩

/-- A written record is tidy when its start is. -/
theorem Tidy.write {now : ℕ} {b : Books} {key : Word} {record : Validator} (tidy : b.Tidy now)
    (narrow : key.toNat < 2 ^ 64) (opened : 0 < b.lastRebalance) (alive : record.Registered)
    (past : record.start ≤ now) (inside : record.start ≤ b.lastRebalance + REBALANCE_PERIOD) :
    (b.write key record).Tidy now :=
  tidy.replace (fun dead => absurd alive dead) (fun _ => narrow) (fun _ => opened) past inside

theorem Tidy.remove {now : ℕ} {b : Books} (tidy : b.Tidy now) (key : Word) : (b.remove key).Tidy now := by
  have dead : ¬ Validator.unset.Registered := fun alive => alive rfl
  exact tidy.replace (fun _ => rfl) (fun alive => absurd alive dead) (fun alive => absurd alive dead)
    (Nat.zero_le _) (Nat.zero_le _)

theorem checkpoint_lastRebalance_le {timestamp : ℕ} {b : Books} (ordered : b.lastRebalance ≤ timestamp) :
    b.lastRebalance ≤ (b.checkpoint timestamp).lastRebalance ∧
    (b.checkpoint timestamp).lastRebalance ≤ timestamp := by
  unfold checkpoint
  split_ifs
  · exact ⟨ordered, le_rfl⟩
  · exact ⟨le_rfl, ordered⟩

theorem Tidy.checkpoint {timestamp : ℕ} {b : Books} (tidy : b.Tidy timestamp) :
    (b.checkpoint timestamp).Tidy timestamp := by
  obtain ⟨advances, current⟩ := checkpoint_lastRebalance_le tidy.current
  refine ⟨current, ?_, ?_, ?_, ?_, ?_⟩ <;> rw [checkpoint_validators]
  · exact tidy.vacant
  · exact tidy.narrow
  · exact fun key alive => (tidy.opened key alive).trans_le advances
  · exact tidy.past
  · exact fun key => (tidy.inside key).trans (Nat.add_le_add_right advances _)

/-- Every action at the timestamp keeps the books tidy. -/
theorem Tidy.action {timestamp : ℕ} {b next : Books} {operation : Operation} (tidy : b.Tidy timestamp)
    (action : Action timestamp b operation next) : next.Tidy timestamp := by
  cases action with
  | settle => exact tidy
  | @enrol key effectiveBalance withdrawal vacant narrow genesis inside =>
      have genesis : 1606824000 ≤ timestamp := genesis
      have inside : timestamp - b.lastRebalance ≤ 21 * 24 * 60 * 60 := inside
      have opened : 0 < b.lastRebalance := by omega
      have alive : ((b.validators key).enrol effectiveBalance withdrawal timestamp).Registered := by
        show timestamp ≠ 0
        omega
      have within : timestamp ≤ b.lastRebalance + REBALANCE_PERIOD := by
        show timestamp ≤ b.lastRebalance + 21 * 24 * 60 * 60
        omega
      exact (tidy.write narrow opened alive le_rfl within).congr rfl rfl
  | @claim key registered enough =>
      have opened := tidy.opened key registered
      have consumed : (b.consume ((b.validators key).claimable b.lastRebalance)).Tidy timestamp :=
        tidy.congr rfl rfl
      exact consumed.write (tidy.narrow key registered) opened opened.ne' tidy.current (Nat.le_add_right _ _)
  | @bank key effectiveBalance registered settled covered inside =>
      have opened := tidy.opened key registered
      have alive : ((b.validators key).bank effectiveBalance timestamp).Registered :=
        (opened.trans_le tidy.current).ne'
      have within : timestamp ≤ b.lastRebalance + REBALANCE_PERIOD := by omega
      exact (tidy.write (tidy.narrow key registered) opened alive le_rfl within).congr rfl rfl
  | leave present releasable =>
      exact (tidy.congr (release_lastRebalance _ b) (release_validators _ b)).remove _

theorem Tidy.step {timestamp now : ℕ} {b next : Books} {operation : Operation} (tidy : b.Tidy now)
    (forward : now ≤ timestamp) (step : Step timestamp b operation next) : next.Tidy timestamp := by
  cases step with
  | hold => exact tidy.later forward
  | act opens action => exact (tidy.later forward).checkpoint.action action

/-- This is what a step does to the record of one validator. -/
inductive Touch (timestamp lastRebalance : ℕ) (key : Word) (validator : Validator) :
    Operation → Validator → Prop
  | rest {operation : Operation} (other : operation ≠ .claim key) :
      Touch timestamp lastRebalance key validator operation validator
  | enrol {effectiveBalance : Uint64} {withdrawal : Address} (vacant : validator = .unset)
      (positive : 0 < timestamp) :
      Touch timestamp lastRebalance key validator (.enrol key effectiveBalance withdrawal)
        (validator.enrol effectiveBalance withdrawal timestamp)
  | claim (registered : validator.Registered) (positive : 0 < lastRebalance) :
      Touch timestamp lastRebalance key validator (.claim key) (validator.restart lastRebalance)
  | bank {effectiveBalance : Uint64} (registered : validator.Registered) :
      Touch timestamp lastRebalance key validator (.bank key effectiveBalance)
        (validator.bank effectiveBalance timestamp)
  | leave : Touch timestamp lastRebalance key validator (.leave key) .unset

/-- A step touches the record of a validator in one of these ways. -/
theorem Step.touch {timestamp now : ℕ} {b next : Books} {operation : Operation} (tidy : b.Tidy now)
    (forward : now ≤ timestamp) (step : Step timestamp b operation next) (key : Word) :
    Touch timestamp (b.checkpoint timestamp).lastRebalance key (b.validators key) operation
      (next.validators key) := by
  have late := (tidy.later forward).checkpoint
  cases step with
  | hold => exact .rest nofun
  | act opens action =>
      rw [← checkpoint_validators timestamp b]
      cases action with
      | settle => exact .rest nofun
      | @enrol target effectiveBalance withdrawal vacant narrow genesis inside =>
          rw [enrol_validators]
          by_cases same : key = target
          · subst same
            rw [Function.update_self]
            exact .enrol (late.vacant key vacant) (lt_of_lt_of_le (by decide) genesis)
          · rw [Function.update_of_ne same]
            exact .rest nofun
      | @claim target registered enough =>
          show Touch _ _ _ _ _ (Function.update (b.checkpoint timestamp).validators target _ key)
          by_cases same : key = target
          · subst same
            rw [Function.update_self]
            exact .claim registered (late.opened key registered)
          · rw [Function.update_of_ne same]
            refine .rest ?_
            rintro ⟨⟩
            exact same rfl
      | @bank target effectiveBalance registered settled covered inside =>
          rw [bank_validators]
          by_cases same : key = target
          · subst same
            rw [Function.update_self]
            exact .bank registered
          · rw [Function.update_of_ne same]
            exact .rest nofun
      | @leave target present releasable =>
          show Touch _ _ _ _ _ (Function.update ((b.checkpoint timestamp).release _).validators target _ key)
          by_cases same : key = target
          · subst same
            rw [Function.update_self]
            exact .leave
          · rw [Function.update_of_ne same, release_validators]
            exact .rest nofun

end Books

section Quiet

variable {B : Type} {G : ReentrancyGuard}

/-- A recipient that makes no call leaves the books alone. -/
theorem Pool.PaysOut.books {callback : Callback B G} {recipient : Address} {amount : ℕ}
    {s prepared after : Pool B G} (quiet : ∀ paid left, callback paid = .ok left → left = paid)
    (pays : PaysOut callback recipient amount s prepared after) : after.books = prepared.books := by
  obtain ⟨status, paid, _, ⟨_, sent⟩, rfl⟩ := pays
  by_cases own : recipient = prepared.self
  · rw [if_pos own] at sent
    rw [sent]
    rfl
  · rw [if_neg own] at sent
    rw [quiet _ _ sent]
    rfl

/-- A quiet effect is a step of the books. -/
theorem Effect.step {timestamp : ℕ} {msg : Msg} {callback : Callback B G} {s r : Pool B G}
    {operation : Books.Operation} (quiet : ∀ paid left, callback paid = .ok left → left = paid)
    (effect : Effect timestamp msg callback s operation r) :
    Books.Step timestamp s.books operation r.books := by
  cases effect with
  | hold => exact .hold
  | settle opens => exact .act opens .settle
  | enrol opens bonded action => exact .act opens action
  | bank opens action => exact .act opens action
  | claim map opens settles registered shared enough solvent priced sent =>
      subst settles shared
      rw [restart_books, sent.books quiet]
      exact .act opens (.claim registered enough)
  | leave map opens settles present releasable bonded sent =>
      subst settles
      rw [remove_books, sent.books quiet]
      refine .act opens (.leave ?_ releasable)
      rcases present with registered | owned
      · exact fun unset => registered (congrArg Validator.start unset)
      · exact fun unset => owned (congrArg Validator.withdrawal unset)

/-- The condition on withdrawals speaks about the record that a claim finds. -/
theorem withdrawsWhen_iff {condition : ℕ → Validator → Prop} {move : Move (World B G) (Input B)}
    {operation : Books.Operation}
    (performs : Performs move.label.env move.label.call.message operation)
    (opens : operation ≠ .hold → move.before.pool.books.Opens move.label.env.timestamp) :
    WithdrawsWhen condition move ↔ ∀ key, operation = .claim key →
      condition (move.before.pool.books.checkpoint move.label.env.timestamp).lastRebalance
        ((move.before.pool.books.checkpoint move.label.env.timestamp).validators key) := by
  constructor
  · intro met key same
    subst same
    have settles := internalRebalance_of_opens (opens (by simp))
    generalize asked : move.label.call.message = message at performs
    cases performs with
    | withdraw => exact met _ _ _ _ _ asked settles
  · intro met indices proof key timestamp c asked settles
    obtain ⟨_, rfl⟩ := internalRebalance_eq_ok.mp settles
    rw [asked] at performs
    cases performs with
    | withdraw => exact met key rfl

theorem Books.Step.opens {timestamp : ℕ} {b next : Books} {operation : Books.Operation}
    (step : Books.Step timestamp b operation next) (acts : operation ≠ .hold) : b.Opens timestamp := by
  cases step with
  | hold => exact absurd rfl acts
  | act opens action => exact opens

/-- A bank finds the record that the condition on active updates speaks about. -/
theorem UpdatesWhen.bank {condition : ℕ → ℕ → Validator → Prop} {move : Move (World B G) (Input B)}
    {key : Word} {effectiveBalance : Uint64} (met : UpdatesWhen condition move)
    (performs : Performs move.label.env move.label.call.message (.bank key effectiveBalance))
    (opens : move.before.pool.books.Opens move.label.env.timestamp) :
    condition move.label.env.timestamp
      (move.before.pool.books.checkpoint move.label.env.timestamp).lastRebalance
      ((move.before.pool.books.checkpoint move.label.env.timestamp).validators key) := by
  generalize asked : move.label.call.message = message at performs
  cases performs with
  | update active => exact met _ _ _ _ _ asked active (internalRebalance_of_opens opens)

variable [Bytes32 B]

/-- A new transaction changes only the transient storage. -/
theorem Pool.begin_eq (fresh : Bool) (s : Pool B G) : ∃ map, s.begin fresh = { s with transient := map } := by
  unfold Pool.begin
  split_ifs
  · exact ⟨_, rfl⟩
  · exact ⟨s.transient, rfl⟩

@[simp] theorem Pool.begin_books (fresh : Bool) (s : Pool B G) : (s.begin fresh).books = s.books := by
  obtain ⟨map, begun⟩ := s.begin_eq fresh
  rw [begun]
  rfl

@[simp] theorem Pool.begin_self (fresh : Bool) (s : Pool B G) : (s.begin fresh).self = s.self := by
  obtain ⟨map, begun⟩ := s.begin_eq fresh
  rw [begun]

@[simp] theorem Pool.begin_status (fresh : Bool) (s : Pool B G) : (s.begin fresh).status = s.status := by
  obtain ⟨map, begun⟩ := s.begin_eq fresh
  rw [begun]

theorem Deployed.tidy {world : World B G} (deployed : Deployed world) :
    world.pool.books.Tidy world.now := by
  obtain ⟨self, balance, created⟩ := deployed
  rw [created]
  have unset (key : Word) : (Pool.constructor (B := B) (G := G) self balance world.now).books.validators key =
      .unset := rfl
  refine ⟨le_rfl, ?_, ?_, ?_, ?_, ?_⟩ <;> intro key <;> rw [unset key]
  · exact fun _ => rfl
  · exact fun alive => absurd rfl alive
  · exact fun alive => absurd rfl alive
  · exact Nat.zero_le _
  · exact Nat.zero_le _

variable [DecidableEq B]

/-- A quiet successful call is a step of the books. -/
theorem Succeeds.step {move : Move (World B G) (Input B)} (succeeds : Succeeds move) (quiet : Quiet move) :
    ∃ operation, Performs move.label.env move.label.call.message operation ∧
      Books.Step move.label.env.timestamp move.before.pool.books operation move.after.pool.books := by
  obtain ⟨_, _, executes⟩ := succeeds
  rw [Call.execute_eq] at executes
  obtain ⟨operation, performs, effect⟩ := dispatch_ok executes
  refine ⟨operation, performs, ?_⟩
  have same (balance : ℕ) : ({ move.before.pool.begin move.label.fresh with balance := balance } :
      Pool B G).books = move.before.pool.books := Pool.begin_books move.label.fresh move.before.pool
  have silent : ∀ paid left : Pool B G, move.label.call.callback move.label.env paid = .ok left →
      left = paid := by
    intro paid left accepted
    unfold Call.callback at accepted
    rw [quiet] at accepted
    split_ifs at accepted
    simp only [executeAll, Except.ok.injEq] at accepted
    exact accepted.symm
  have stepped := effect.step silent
  rwa [same] at stepped

/-- The books of a quiet run are tidy. -/
theorem quiet_tidy {trace : List (Move (World B G) (Input B))} {world : World B G}
    (run : Run Deployed (fun move => Succeeds move ∧ Quiet move) trace world) :
    world.pool.books.Tidy world.now := by
  induction run with
  | start deployed => exact deployed.tidy
  | next move _ moves tidy =>
      obtain ⟨succeeds, quiet⟩ := moves
      obtain ⟨operation, _, step⟩ := succeeds.step quiet
      rw [succeeds.2.1]
      exact tidy.step succeeds.1 step

/-- An invariant of the books holds along every quiet run whose moves meet a condition. -/
theorem quiet_invariant {condition : Move (World B G) (Input B) → Prop} (holds : ℕ → Books → Prop)
    (starts : ∀ world : World B G, Deployed world → holds world.now world.pool.books)
    (keeps : ∀ move operation, Succeeds move → condition move →
      Performs move.label.env move.label.call.message operation →
      move.before.pool.books.Tidy move.before.now → holds move.before.now move.before.pool.books →
      Books.Step move.label.env.timestamp move.before.pool.books operation move.after.pool.books →
      holds move.label.env.timestamp move.after.pool.books)
    {trace : List (Move (World B G) (Input B))} {world : World B G}
    (run : Run Deployed (fun move => Succeeds move ∧ Quiet move ∧ condition move) trace world) :
    world.pool.books.Tidy world.now ∧ holds world.now world.pool.books := by
  induction run with
  | start deployed => exact ⟨deployed.tidy, starts _ deployed⟩
  | next move _ moves earlier =>
      obtain ⟨succeeds, quiet, met⟩ := moves
      obtain ⟨tidy, held⟩ := earlier
      obtain ⟨operation, performs, step⟩ := succeeds.step quiet
      rw [succeeds.2.1]
      exact ⟨tidy.step succeeds.1 step, keeps move operation succeeds met performs tidy held step⟩

end Quiet

end SmoothlyPool
