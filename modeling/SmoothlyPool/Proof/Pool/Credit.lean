import SmoothlyPool.Proof.Pool.Refine
import SmoothlyPool.Proof.Scenario
import Mathlib.Algebra.BigOperators.Intervals

namespace SmoothlyPool

open Pool Transition

variable {B : Type} {G : ReentrancyGuard}

/-- The move makes the validator a member. -/
def Registers (key : Word) (move : Move (World B G) (Input B)) : Prop :=
  ¬ (move.before.pool.validators key).Registered ∧ (move.after.pool.validators key).Registered

instance (key : Word) (move : Move (World B G) (Input B)) : Decidable (Registers key move) :=
  inferInstanceAs (Decidable (_ ∧ _))

/-- This is the time of the newest registration. -/
def registrationTime (key : Word) : List (Move (World B G) (Input B)) → ℕ
  | [] => 0
  | move :: rest => if Registers key move then move.after.now else registrationTime key rest

/-- This is the share that a withdrawal consumes: the one that it finds after its rebalance. -/
def consumedBy (key : Word) (move : Move (World B G) (Input B)) : ℕ :=
  match move.label.call.message, move.before.pool.internalRebalance move.label.env.timestamp with
  | .withdraw _ _ validatorIndex _, .ok c =>
      if validatorIndex = key then (c.validators key).claimable c.lastRebalance else 0
  | _, _ => 0

/-- These are the shares consumed since the newest registration. -/
def consumed (key : Word) : List (Move (World B G) (Input B)) → ℕ
  | [] => 0
  | move :: rest => if Registers key move then 0 else consumedBy key move + consumed key rest

/-- This is the effective balance that the pool has recorded at a time. -/
def balanceAt (key : Word) : List (Move (World B G) (Input B)) → ℕ → ℕ
  | [], _ => 0
  | move :: rest, time =>
      if move.after.now ≤ time then (move.after.pool.validators key).effectiveBalance.toNat
      else balanceAt key rest time

/-- The record of a registered validator agrees with its history up to `start`. -/
structure Credited (key : Word) (trace : List (Move (World B G) (Input B))) (validator : Validator) :
    Prop where
  joined : registrationTime key trace ≤ validator.start
  served : consumed key trace + validator.smooths =
    ∑ time ∈ Finset.Ico (registrationTime key trace) validator.start, balanceAt key trace time
  recorded : ∀ time, validator.start ≤ time → balanceAt key trace time = validator.effectiveBalance.toNat

/-- The claimable share adds the time up to the last rebalance. -/
theorem Credited.claimable {key : Word} {trace : List (Move (World B G) (Input B))}
    {validator : Validator} (credited : Credited key trace validator) (lastRebalance : ℕ) :
    consumed key trace + validator.claimable lastRebalance =
      ∑ time ∈ Finset.Ico (registrationTime key trace) (max lastRebalance validator.start),
        balanceAt key trace time := by
  obtain ⟨joined, served, recorded⟩ := credited
  rw [← Finset.sum_Ico_consecutive _ joined (le_max_right lastRebalance validator.start), ← served,
    Validator.claimable_eq]
  have constant : ∑ time ∈ Finset.Ico validator.start (max lastRebalance validator.start),
      balanceAt key trace time =
        (max lastRebalance validator.start - validator.start) * validator.effectiveBalance.toNat := by
    rw [Finset.sum_congr rfl fun time member => recorded time (Finset.mem_Ico.mp member).1,
      Finset.sum_const, Nat.card_Ico, smul_eq_mul]
  have stretch : max lastRebalance validator.start - validator.start = lastRebalance - validator.start := by
    omega
  rw [constant, stretch]
  omega

/-- A move later than a time leaves the balance at that time alone. -/
theorem balanceAt_before {key : Word} {move : Move (World B G) (Input B)}
    {trace : List (Move (World B G) (Input B))} {time : ℕ} (before : time < move.after.now) :
    balanceAt key (move :: trace) time = balanceAt key trace time := if_neg (Nat.not_le_of_lt before)

theorem served_before {key : Word} {move : Move (World B G) (Input B)}
    {trace : List (Move (World B G) (Input B))} {first last : ℕ} (past : last ≤ move.after.now) :
    ∑ time ∈ Finset.Ico first last, balanceAt key (move :: trace) time =
      ∑ time ∈ Finset.Ico first last, balanceAt key trace time := by
  apply Finset.sum_congr rfl
  intro time member
  exact balanceAt_before ((Finset.mem_Ico.mp member).2.trans_le past)

/-- A claim consumes the share that the books hold for it. -/
theorem consumedBy_eq (key : Word) {move : Move (World B G) (Input B)} {operation : Books.Operation}
    (performs : Performs move.label.env move.label.call.message operation)
    (opens : operation ≠ .hold → move.before.pool.books.Opens move.label.env.timestamp) :
    (operation ≠ .claim key → consumedBy key move = 0) ∧
    (operation = .claim key → consumedBy key move = (move.before.pool.validators key).claimable
      (move.before.pool.books.checkpoint move.label.env.timestamp).lastRebalance) := by
  unfold consumedBy
  generalize move.label.call.message = message at performs
  cases performs with
  | @withdraw indices proof target timestamp =>
      rw [internalRebalance_of_opens (opens nofun)]
      constructor
      · intro other
        exact if_neg fun same => other (congrArg _ same)
      · intro same
        obtain rfl := Books.Operation.claim.inj same
        simp only [if_true, checkpoint_validators]
        rfl
  | _ => exact ⟨fun _ => rfl, nofun⟩

/-- A move that neither registers nor consumes extends a history that is constant from `start` on. -/
theorem Credited.extend {key : Word} {move : Move (World B G) (Input B)}
    {trace : List (Move (World B G) (Input B))} {before after : Validator}
    (credited : Credited key trace before) (member : ¬ Registers key move)
    (written : move.after.pool.validators key = after)
    (forward : before.start ≤ after.start) (present : after.start ≤ move.after.now)
    (steady : after.effectiveBalance = before.effectiveBalance ∨ after.start = move.after.now)
    (share : consumedBy key move + after.smooths =
      before.smooths + (after.start - before.start) * before.effectiveBalance.toNat) :
    Credited key (move :: trace) after := by
  obtain ⟨joined, served, recorded⟩ := credited
  have time : registrationTime key (move :: trace) = registrationTime key trace := if_neg member
  have spent : consumed key (move :: trace) = consumedBy key move + consumed key trace := if_neg member
  refine ⟨?_, ?_, ?_⟩
  · rw [time]
    exact joined.trans forward
  · have stretch : ∑ time ∈ Finset.Ico before.start after.start, balanceAt key trace time =
        (after.start - before.start) * before.effectiveBalance.toNat := by
      rw [Finset.sum_congr rfl fun time inside => recorded time (Finset.mem_Ico.mp inside).1,
        Finset.sum_const, Nat.card_Ico, smul_eq_mul]
    rw [time, spent, served_before present, ← Finset.sum_Ico_consecutive _ joined forward, ← served, stretch]
    omega
  · intro moment late
    by_cases recent : move.after.now ≤ moment
    · have newest : balanceAt key (move :: trace) moment =
          (move.after.pool.validators key).effectiveBalance.toNat := if_pos recent
      rw [newest, written]
    · rw [balanceAt_before (Nat.lt_of_not_le recent), recorded moment (forward.trans late)]
      rcases steady with same | restarted
      · rw [same]
      · omega

/-- Every step keeps the history of a registered validator right when a claim finds no pending record. -/
theorem Credited.step {key : Word} {move : Move (World B G) (Input B)}
    {trace : List (Move (World B G) (Input B))} {operation : Books.Operation} {lastRebalance : ℕ}
    (touch : Books.Touch move.after.now lastRebalance key (move.before.pool.validators key) operation
      (move.after.pool.validators key))
    (past : (move.before.pool.validators key).start ≤ move.after.now)
    (current : lastRebalance ≤ move.after.now)
    (idle : operation ≠ .claim key → consumedBy key move = 0)
    (spent : operation = .claim key →
      consumedBy key move = (move.before.pool.validators key).claimable lastRebalance)
    (settled : operation = .claim key → (move.before.pool.validators key).start ≤ lastRebalance)
    (credited : (move.before.pool.validators key).Registered →
      Credited key trace (move.before.pool.validators key))
    (registered : (move.after.pool.validators key).Registered) :
    Credited key (move :: trace) (move.after.pool.validators key) := by
  have stays (member : (move.before.pool.validators key).Registered) : ¬ Registers key move :=
    fun registers => registers.1 member
  generalize first : move.before.pool.validators key = before at touch past spent settled credited stays
  generalize written : move.after.pool.validators key = after at touch registered
  cases touch with
  | rest other =>
      apply (credited registered).extend (stays registered) written le_rfl past (.inl rfl)
      rw [idle other, Nat.sub_self]
      omega
  | enrol vacant positive =>
      have registers : Registers key move := by
        refine ⟨?_, ?_⟩
        · rw [first, vacant]
          exact fun alive => alive rfl
        · rwa [written]
      have time : registrationTime key (move :: trace) = move.after.now := if_pos registers
      have spent : consumed key (move :: trace) = 0 := if_pos registers
      refine ⟨time.le, ?_, ?_⟩
      · rw [time, spent, vacant]
        simp [Validator.enrol, Validator.unset]
      · intro moment late
        rw [← written]
        exact if_pos late
  | claim member positive =>
      have early := settled rfl
      apply (credited member).extend (stays member) written early current (.inl rfl)
      rw [spent rfl, Validator.claimable_eq]
      show _ + 0 = before.smooths + (lastRebalance - before.start) * before.effectiveBalance.toNat
      omega
  | bank member =>
      apply (credited member).extend (stays member) written past le_rfl (.inr rfl)
      rw [idle nofun]
      exact Nat.zero_add _
  | leave => exact absurd rfl registered

/-- The withdrawal finds a record that started no later than the last rebalance. -/
def WithdrawsStarted (move : Move (World B G) (Input B)) : Prop :=
  WithdrawsWhen (fun lastRebalance validator => validator.start ≤ lastRebalance) move

variable [Bytes32 B] [DecidableEq B]

theorem quiet_credited {trace : List (Move (World B G) (Input B))} {world : World B G}
    (run : Run Deployed (fun move => (Succeeds move ∧ Quiet move) ∧ WithdrawsStarted move) trace world)
    (key : Word) (registered : (world.pool.validators key).Registered) :
    Credited key trace (world.pool.validators key) := by
  induction run with
  | start deployed =>
      obtain ⟨self, balance, created⟩ := deployed
      rw [created] at registered
      exact absurd rfl registered
  | next move earlier moves ih =>
      obtain ⟨⟨succeeds, quiet⟩, started⟩ := moves
      obtain ⟨operation, performs, step⟩ := succeeds.step quiet
      have tidy := quiet_tidy (earlier.weaken fun _ both => both.1)
      obtain ⟨forward, present, _⟩ := succeeds
      have touch := step.touch tidy forward key
      obtain ⟨idle, spent⟩ := consumedBy_eq key performs step.opens
      have found := (withdrawsWhen_iff performs step.opens).mp started key
      rw [← present] at touch spent forward found
      refine Credited.step touch ((tidy.past key).trans forward) ?_ idle spent ?_ ih registered
      · exact (tidy.later forward).checkpoint.current
      · intro claims
        have settled := found claims
        rwa [Books.checkpoint_validators] at settled

/-- The consumed and the claimable shares of a registered validator are its balance summed over the
time from its registration to the last rebalance, or to its start when that is later. -/
theorem credit_eq_balance_time {trace : List (Move (World B G) (Input B))} {world : World B G}
    (run : Run Deployed (fun move => (Succeeds move ∧ Quiet move) ∧ WithdrawsStarted move) trace world)
    (i : Word) (registered : i ∈ world.pool.registered) :
    consumed i trace + (world.pool.validators i).claimable world.pool.lastRebalance =
      ∑ time ∈ Finset.Ico (registrationTime i trace)
        (max world.pool.lastRebalance (world.pool.validators i).start), balanceAt i trace time :=
  (quiet_credited run i (Ledger.mem_keys.mp registered)).claimable world.pool.lastRebalance

/-- The credit is right after an update to half of the balance and a withdrawal in place. -/
theorem inPlace_credit :
    consumed 5 Sample.inPlaceTrace + (Sample.inPlace.pool.validators 5).claimable Sample.inPlace.pool.lastRebalance =
      ∑ time ∈ Finset.Ico (registrationTime 5 Sample.inPlaceTrace)
        (max Sample.inPlace.pool.lastRebalance (Sample.inPlace.pool.validators 5).start),
        balanceAt 5 Sample.inPlaceTrace time := by
  have run : Run Deployed (fun move => (Succeeds move ∧ Quiet move) ∧ WithdrawsStarted move) Sample.inPlaceTrace
      Sample.inPlace := by
    apply Sample.inPlace_run.weaken
    rintro move ⟨acts, withdraws, _⟩
    exact ⟨acts, withdraws.imp fun _ _ same => same.le⟩
  exact credit_eq_balance_time run 5 (Ledger.mem_keys.mpr (by decide +kernel))

/-- No record of the latecomer exceeds 32 ETH. -/
theorem credited_balance_le (time : ℕ) : balanceAt 6 Sample.creditedTrace time ≤ 32000000000 := by
  unfold Sample.creditedTrace
  simp only [balanceAt]
  split_ifs <;> decide +kernel

/-- A withdrawal of a pending validator moves its start back to a time before its registration. -/
theorem credited_early :
    Run Deployed (fun move => Succeeds move ∧ Quiet move) Sample.creditedTrace Sample.credited ∧
    6 ∈ Sample.credited.pool.registered ∧
    consumed 6 Sample.creditedTrace +
        (Sample.credited.pool.validators 6).claimable Sample.credited.pool.lastRebalance ≠
      ∑ time ∈ Finset.Ico (registrationTime 6 Sample.creditedTrace)
        (max Sample.credited.pool.lastRebalance (Sample.credited.pool.validators 6).start),
        balanceAt 6 Sample.creditedTrace time := by
  refine ⟨Sample.credited_run, Ledger.mem_keys.mpr (by decide +kernel), ?_⟩
  intro same
  have bound := Finset.sum_le_card_nsmul (Finset.Ico (registrationTime 6 Sample.creditedTrace)
    (max Sample.credited.pool.lastRebalance (Sample.credited.pool.validators 6).start))
    (balanceAt 6 Sample.creditedTrace) 32000000000 fun time _ => credited_balance_le time
  rw [← same, Nat.card_Ico, smul_eq_mul] at bound
  exact absurd bound (by decide +kernel)

end SmoothlyPool
