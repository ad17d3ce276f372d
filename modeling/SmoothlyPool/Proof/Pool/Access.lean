import SmoothlyPool.Proof.Pool.Parts
import SmoothlyPool.Proof.Pool.Solvency

namespace SmoothlyPool

open Pool Transition

variable {B : Type} {G : ReentrancyGuard} [Bytes32 B] [DecidableEq B]

/-- There are three ways to lose a membership. -/
inductive Evicted (move : Move (World B G) (Input B)) (key : Word) : Prop
  | exit (asked : move.label.call.message = .exit key)
      (owner : move.label.call.msg.sender = (move.before.pool.validators key).withdrawal)
  | slash {indices : List ℕ} {proof : List B} {feeRecipient : Address} {timestamp : Uint64}
      (asked : move.label.call.message = .slashBadFeeRecipient indices proof key feeRecipient timestamp)
      (proposed : Proposed move.label.env (move.before.pool.begin move.label.fresh) indices proof key feeRecipient
        timestamp)
      (wrong : feeRecipient ≠ move.before.pool.self)
  | retire {validatorIndex : Uint64} {validatorProof : List B} {validator : BeaconChainValidator} {ts : Uint64}
      (asked : move.label.call.message = .updateValidator validatorIndex validatorProof validator ts)
      (same : key = validatorIndex.setWidth 256) (attested : Attests move.label.env key validator)
      (inactive : BeaconOracle.isActiveValidator move.label.env validator = .ok false)

/-- A removal has brought its evidence. -/
theorem Carries.evicted {move : Move (World B G) (Input B)} {key : Word} (carries : Carries move (.leave key)) :
    Evicted move key := by
  have justified := carries.justified
  generalize asked : move.label.call.message = message at justified
  cases justified with
  | retire attested inactive => exact .retire asked rfl attested inactive
  | slash proposed wrong =>
      rw [begin_self] at wrong
      exact .slash asked proposed wrong
  | exit owner =>
      have records := congrArg Books.validators (begin_books move.label.fresh move.before.pool)
      rw [← books_validators, records] at owner
      exact .exit asked owner

/-- The pool has accepted an active record with this effective balance. -/
def Active (env : Env B) (key : Word) (effectiveBalance : Uint64) : Prop :=
  ∃ record, Attests env key record ∧ BeaconOracle.isActiveValidator env record = .ok true ∧
    effectiveBalance = record.effectiveBalance

/-- The member keeps its address and its bond, and a new effective balance comes from an active record. -/
structure Continues (env : Env B) (key : Word) (before after : Validator) : Prop where
  registered : after.Registered
  withdrawal : after.withdrawal = before.withdrawal
  bond : after.bond = before.bond
  balance : after.effectiveBalance = before.effectiveBalance ∨ Active env key after.effectiveBalance

/-- The new record is the one that the pool has accepted, with the present as its start. -/
def Joins (env : Env B) (key : Word) (after : Validator) : Prop :=
  ∃ record withdrawal, Attests env key record ∧ BeaconOracle.isActiveValidator env record = .ok true ∧
    BeaconOracle.withdrawalToAddress record.withdrawalCredentials = .ok withdrawal ∧
    after = ⟨record.effectiveBalance, withdrawal, BOND, env.timestamp, 0⟩

variable {env : Env B} {operation : Books.Operation} {key : Word} {lastRebalance : ℕ}
  {first before after : Validator}

/-- A part that does not remove a member continues its record. -/
theorem Rewritten.continues (rewritten : Rewritten env operation key lastRebalance before after)
    (stays : operation ≠ .leave key) (opened : 0 < lastRebalance) (current : lastRebalance ≤ env.timestamp)
    (continues : Continues env key first before) : Continues env key first after := by
  obtain ⟨registered, withdrawal, bond, balance⟩ := continues
  cases rewritten with
  | kept => exact ⟨registered, withdrawal, bond, balance⟩
  | enrolled vacant genesis attested active address => exact absurd registered vacant
  | banked member settled attested active =>
      exact ⟨(opened.trans_le current).ne', withdrawal, bond, .inr ⟨_, attested, active, rfl⟩⟩
  | restarted own => exact ⟨opened.ne', withdrawal, bond, balance⟩
  | removed own => exact absurd own stays

/-- A vacant place stays vacant or takes one new member in. -/
theorem Rewritten.joins (rewritten : Rewritten env operation key lastRebalance before after)
    (stays : operation ≠ .claim key ∧ operation ≠ .leave key) (current : lastRebalance ≤ env.timestamp)
    (joins : before = .unset ∨ Joins env key before) : after = .unset ∨ Joins env key after := by
  cases rewritten with
  | kept => exact joins
  | enrolled vacant genesis attested active address =>
      rcases joins with rfl | ⟨_, _, _, _, _, rfl⟩
      · exact .inr ⟨_, _, attested, active, address, rfl⟩
      · have started : BeaconOracle.BEACON_GENESIS ≠ 0 := by decide
        have alive : env.timestamp ≠ 0 := fun zero => started (Nat.le_zero.mp (genesis.trans zero.le))
        exact absurd alive vacant
  | banked member settled attested active =>
      rcases joins with rfl | ⟨_, _, _, _, _, rfl⟩
      · exact absurd rfl member
      · have late : env.timestamp < lastRebalance := settled
        omega
  | restarted own => exact absurd own stays.1
  | removed own => exact absurd own stays.2

/-- A call treats the record of a validator lawfully: it removes a member with evidence or continues its record,
and it leaves a vacant place empty or takes a proven member in. -/
structure Lawful (move : Move (World B G) (Input B)) (key : Word) : Prop where
  member : (move.before.pool.validators key).Registered →
    Evicted move key ∧ move.after.pool.validators key = .unset ∨
    Continues move.label.env key (move.before.pool.validators key) (move.after.pool.validators key)
  vacant : ¬ (move.before.pool.validators key).Registered →
    move.after.pool.validators key = .unset ∨ Joins move.label.env key (move.after.pool.validators key)

theorem Succeeds.lawful {move : Move (World B G) (Input B)} {trace : List (Move (World B G) (Input B))}
    (run : Run Deployed Succeeds trace move.before) (succeeds : Succeeds move) (key : Word) :
    Lawful move key := by
  obtain ⟨idle, secure⟩ := run_secure run
  obtain ⟨operation, carries⟩ := succeeds.carries idle
  have current : move.before.pool.lastRebalance ≤ move.label.env.timestamp := (run_clock run).trans succeeds.1
  constructor
  · intro registered
    by_cases leaves : operation = .leave key
    · subst leaves
      exact .inl ⟨carries.evicted, carries.removed key rfl⟩
    · right
      refine (carries.parts.invariant (fun s => 0 < s.lastRebalance ∧ s.lastRebalance ≤ move.label.env.timestamp ∧
        Continues move.label.env key (move.before.pool.validators key) (s.validators key)) ?_
        ⟨secure.opened key registered, current, registered, rfl, rfl, .inl rfl⟩).2.2
      rintro s r part ⟨opened, current, continues⟩
      obtain ⟨forward, later⟩ := part.clock current
      exact ⟨opened.trans_le forward, later, (part.record key).continues leaves opened current continues⟩
  · intro vacant
    by_cases leaves : operation = .leave key
    · exact .inl (carries.removed key leaves)
    · have stays : operation ≠ .claim key ∧ operation ≠ .leave key :=
        ⟨fun claims => vacant (carries.claimant key claims), leaves⟩
      refine (carries.parts.invariant (fun s => s.lastRebalance ≤ move.label.env.timestamp ∧
        (s.validators key = .unset ∨ Joins move.label.env key (s.validators key))) ?_
        ⟨current, .inl (secure.vacant key vacant)⟩).2
      rintro s r part ⟨current, joins⟩
      exact ⟨(part.clock current).2, (part.record key).joins stays current joins⟩

/-- In every run and whatever calls the recipients of ETH make, a member leaves only by a call of its withdrawal
address, by a proven block with a wrong fee recipient, or by a proven record that is not active.  Until then its
withdrawal address and its bond never change, and its effective balance comes from a proven active record.  A new
member has the address and the balance of a proven active record. -/
theorem membership_lawful {trace : List (Move (World B G) (Input B))} {world : World B G}
    (run : Run Deployed Succeeds trace world) (key : Word) : ∀ move ∈ trace,
    ((move.before.pool.validators key).Registered →
      Evicted move key ∧ move.after.pool.validators key = .unset ∨
      Continues move.label.env key (move.before.pool.validators key) (move.after.pool.validators key)) ∧
    (¬ (move.before.pool.validators key).Registered →
      move.after.pool.validators key = .unset ∨ Joins move.label.env key (move.after.pool.validators key)) := by
  intro move member
  obtain ⟨older, newer, rfl⟩ := List.append_of_mem member
  obtain ⟨succeeds, before⟩ := run.split
  have lawful := succeeds.lawful before key
  exact ⟨lawful.member, lawful.vacant⟩

/-- The owner has asked for the exit, and its recipient could not keep the record alive. -/
theorem reentered_lawful : Evicted (Sample.settledBoth.move Sample.leaveUpdating) 5 := by
  have lawful := membership_lawful Sample.reentered_run 5 (Sample.settledBoth.move Sample.leaveUpdating)
    List.mem_cons_self
  rcases lawful.1 (by decide +kernel) with ⟨evicted, _⟩ | continues
  · exact evicted
  · exact absurd continues.registered (by decide +kernel)

end SmoothlyPool
