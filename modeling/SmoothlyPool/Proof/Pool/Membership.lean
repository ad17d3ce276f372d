import SmoothlyPool.Proof.Pool.Credit
import SmoothlyPool.Proof.Scenario

namespace SmoothlyPool

open Checked Pool Transition

variable {B : Type} {G : ReentrancyGuard}

/-- The beacon chain gives each block a later timestamp than its parent. -/
structure Chain (B : Type) where
  time : ℕ → ℕ
  increasing : StrictMono time
  root : ℕ → B
  proposer : ℕ → Word
  feeRecipient : ℕ → Address

/-- The call runs in a block of the chain.
For a timestamp of a block, `BEACON_ROOTS` returns the root of the parent of that block. -/
def OnChain (chain : Chain B) (move : Move (World B G) (Input B)) : Prop :=
  (∃ block, move.label.env.timestamp = chain.time block) ∧
  ∀ ts root, move.label.env.beaconRoots ts = some root →
    ∃ block, chain.time (block + 1) = ts.toNat ∧ chain.root block = root

/-- The move slashes the validator with a proof for the block whose child has the timestamp. -/
def Slashes (move : Move (World B G) (Input B)) (validatorIndex : Word) (feeRecipient : Address)
    (timestamp : Uint64) : Prop :=
  ∃ indices proof, move.label.call.message =
    .slashBadFeeRecipient indices proof validatorIndex feeRecipient timestamp

/-- The proven block has this proposer and this fee recipient. -/
def Genuine (chain : Chain B) (move : Move (World B G) (Input B)) : Prop :=
  ∀ validatorIndex feeRecipient timestamp block, Slashes move validatorIndex feeRecipient timestamp →
    chain.time (block + 1) = timestamp.toNat →
    chain.proposer block = validatorIndex ∧ chain.feeRecipient block = feeRecipient

/-- A registered validator has registered in a block of the chain. -/
theorem registrationTime_block [Bytes32 B] [DecidableEq B] {chain : Chain B}
    {trace : List (Move (World B G) (Input B))} {world : World B G} {key : Word}
    (run : Run Deployed (fun move => Succeeds move ∧ OnChain chain move) trace world)
    (registered : (world.pool.validators key).Registered) :
    ∃ block, registrationTime key trace = chain.time block := by
  induction run with
  | start deployed =>
      obtain ⟨self, balance, created⟩ := deployed
      rw [created] at registered
      exact absurd rfl registered
  | @next trace move earlier moves ih =>
      obtain ⟨⟨_, present, _⟩, ⟨block, same⟩, _⟩ := moves
      by_cases joins : Registers key move
      · refine ⟨block, ?_⟩
        have time : registrationTime key (move :: trace) = move.after.now := if_pos joins
        rw [time, present, same]
      · have time : registrationTime key (move :: trace) = registrationTime key trace := if_neg joins
        rw [time]
        apply ih
        by_contra vacant
        exact joins ⟨vacant, registered⟩

/-- An accepted multiproof has been checked against a root for the timestamp. -/
theorem verifyFeeRecipient_found [Bytes32 B] [DecidableEq B] {env : Env B} {indices : List ℕ} {proof : List B}
    {validatorIndex : Word} {feeRecipient : Address} {timestamp : Uint64} {map : HashMap B}
    {result : Bool × HashMap B}
    (success : BeaconOracle.verifyFeeRecipient env indices proof validatorIndex feeRecipient timestamp map =
      .ok result) : ∃ root, env.beaconRoots timestamp = some root := by
  simp only [BeaconOracle.verifyFeeRecipient, bind_eq_ok] at success
  obtain ⟨_, _, root, found, _⟩ := success
  refine ⟨root, ?_⟩
  unfold BeaconOracle.getParentBlockRoot at found
  split at found
  · rename_i value returned
    rw [returned, Except.ok.inj found]
  · cases found

/-- A successful slashing finds a registered validator, a root for the timestamp, and a wrong recipient. -/
theorem Slashes.found [Bytes32 B] [DecidableEq B] {move : Move (World B G) (Input B)}
    {validatorIndex : Word} {feeRecipient : Address} {timestamp : Uint64}
    (slashes : Slashes move validatorIndex feeRecipient timestamp) (succeeds : Succeeds move) :
    (move.before.pool.validators validatorIndex).Registered ∧ feeRecipient ≠ move.before.pool.self ∧
    ∃ root, move.label.env.beaconRoots timestamp = some root := by
  obtain ⟨indices, proof, asked⟩ := slashes
  obtain ⟨_, _, executes⟩ := succeeds
  rw [Call.execute_eq, asked] at executes
  have success : Pool.slashBadFeeRecipient _ _ _ indices proof validatorIndex feeRecipient timestamp _ =
    .ok _ := executes
  simp only [Pool.slashBadFeeRecipient, nonPayable, bind_eq_ok, require_eq_ok] at success
  obtain ⟨_, _, c, settles, _, registered, _, verified, _, wrong, _⟩ := success
  obtain ⟨_, rfl⟩ := internalRebalance_eq_ok.mp settles
  have begun := congrArg Books.validators (begin_books move.label.fresh move.before.pool)
  refine ⟨?_, ?_, verifyFeeRecipient_found verified⟩
  · rw [checkpoint_validators] at registered
    rw [← books_validators, ← begun]
    exact registered
  · rw [← begin_self move.label.fresh]
    exact wrong

/-- A time at which a block was made lies before a block exactly when it lies before its child. -/
theorem Chain.le_iff_lt_child (chain : Chain B) {made block : ℕ} :
    chain.time made ≤ chain.time block ↔ chain.time made < chain.time (block + 1) := by
  rw [chain.increasing.le_iff_le, chain.increasing.lt_iff_lt, Nat.lt_succ_iff]

/-- The block whose root is found was made after the registration exactly when the timestamp is later. -/
theorem OnChain.proven [Bytes32 B] [DecidableEq B] {chain : Chain B} {move : Move (World B G) (Input B)}
    {older : List (Move (World B G) (Input B))} {key : Word} {timestamp : Uint64} {root : B}
    (placed : OnChain chain move)
    (earlier : Run Deployed (fun move => Succeeds move ∧ OnChain chain move) older move.before)
    (registered : (move.before.pool.validators key).Registered)
    (found : move.label.env.beaconRoots timestamp = some root) :
    ∃ block, chain.time (block + 1) = timestamp.toNat ∧
      (registrationTime key older ≤ chain.time block ↔ registrationTime key older < timestamp.toNat) := by
  obtain ⟨made, time⟩ := registrationTime_block earlier registered
  obtain ⟨block, child, _⟩ := placed.2 timestamp root found
  refine ⟨block, child, ?_⟩
  rw [time, ← child]
  exact chain.le_iff_lt_child

/-- Every slashing of a run proves a block that the validator proposed as a member and with a wrong fee
recipient, exactly when the timestamp of every slashing is later than the registration. -/
theorem slashings_since_registration [Bytes32 B] [DecidableEq B] {chain : Chain B}
    {trace : List (Move (World B G) (Input B))} {world : World B G}
    (run : Run Deployed (fun move => Succeeds move ∧ OnChain chain move ∧ Genuine chain move)
      trace world) :
    (∀ newer slash older validatorIndex feeRecipient timestamp, trace = newer ++ slash :: older →
      Slashes slash validatorIndex feeRecipient timestamp →
      ∃ block, chain.time (block + 1) = timestamp.toNat ∧
        registrationTime validatorIndex older ≤ chain.time block ∧
        chain.proposer block = validatorIndex ∧ chain.feeRecipient block ≠ slash.before.pool.self) ↔
    (∀ newer slash older validatorIndex feeRecipient timestamp, trace = newer ++ slash :: older →
      Slashes slash validatorIndex feeRecipient timestamp →
      registrationTime validatorIndex older < timestamp.toNat) := by
  constructor
  · intro since newer slash older validatorIndex feeRecipient timestamp split slashes
    obtain ⟨block, child, joined, _⟩ := since _ _ _ _ _ _ split slashes
    rw [← child]
    exact joined.trans_lt (chain.increasing (Nat.lt_succ_self block))
  · intro late newer slash older validatorIndex feeRecipient timestamp split slashes
    have before := late _ _ _ _ _ _ split slashes
    subst split
    obtain ⟨⟨succeeds, placed, genuine⟩, earlier⟩ := run.split
    obtain ⟨registered, wrong, root, found⟩ := slashes.found succeeds
    obtain ⟨block, child, since⟩ := placed.proven (earlier.weaken fun _ all => ⟨all.1, all.2.1⟩) registered found
    obtain ⟨proposed, recipient⟩ := genuine _ _ _ block slashes child
    exact ⟨block, child, since.mpr before, proposed, by rwa [recipient]⟩

namespace Sample

/-- A slot has 12 seconds. -/
theorem slots_increasing : StrictMono fun block : ℕ => 1700000000 + 12 * block :=
  fun _ _ less => Nat.add_lt_add_left (Nat.mul_lt_mul_of_pos_left less (by decide)) _

/-- The validator 5 proposes every block of this chain and pays its fees to `0xbad`.
The proof of its record is against the root of the block 4. -/
def chain : Chain Term where
  time block := 1700000000 + 12 * block
  increasing := slots_increasing
  root block := if block = 4 then validatorRoot 5 (.sample 32000000000 1000000) else blockRoot 5 0xbad
  proposer _ := 5
  feeRecipient _ := 0xbad

/-- A call in a block of the chain is on the chain when it sees one root, which belongs to a block. -/
theorem onChain_answering {B : Type} {G : ReentrancyGuard} {chain : Chain B} {move : Move (World B G) (Input B)}
    {time ts : Uint64} {root : B} (made block : ℕ) (env : move.label.env = .answering time ts root)
    (now : chain.time made = time.toNat) (child : chain.time (block + 1) = ts.toNat)
    (rooted : chain.root block = root) : OnChain chain move := by
  unfold OnChain
  rw [env]
  refine ⟨⟨made, now.symm⟩, ?_⟩
  intro asked other found
  have same : (if asked = ts then some root else none) = some other := found
  split_ifs at same with known
  rw [known]
  exact ⟨block, child, rooted.trans (Option.some.inj same)⟩

/-- The validator registers in the block 20. -/
def joinBlock : Input Term := register 1700000240 1700000060 5 (.sample 32000000000 1000000)

@[irreducible] def member : SampleWorld := SampleWorld.deployed.next joinBlock

/-- The slashing in the block 30 proves the parent of a block. -/
def slashBlock (ts : Uint64) : Input Term := slash 1700000360 ts 5 0xbad

theorem member_run : Run Deployed (fun move => Succeeds move ∧ OnChain chain move ∧ Genuine chain move)
    [SampleWorld.deployed.move joinBlock] member := by
  unfold member
  refine World.run_move joinBlock (.start SampleWorld.deployed_deployed)
    ⟨World.move_succeeds (by decide +kernel), onChain_answering 20 4 rfl rfl rfl (by simp [chain]), ?_⟩
  rintro validatorIndex feeRecipient timestamp block ⟨indices, proof, asked⟩
  exact nomatch asked

/-- A slashing with the timestamp of a later block than the block 5 proves a block of the chain. -/
theorem slash_run (ts : Uint64) (block : ℕ) (child : chain.time (block + 1) = ts.toNat) (other : block ≠ 4)
    (succeeds : (member.call (slashBlock ts)).isOk = true) :
    Run Deployed (fun move => Succeeds move ∧ OnChain chain move ∧ Genuine chain move)
      [member.move (slashBlock ts), SampleWorld.deployed.move joinBlock] (member.next (slashBlock ts)) := by
  refine World.run_move (slashBlock ts) member_run
    ⟨World.move_succeeds succeeds, onChain_answering 30 block rfl rfl child (if_neg other), ?_⟩
  rintro validatorIndex feeRecipient timestamp block ⟨indices, proof, asked⟩ _
  cases asked
  exact ⟨rfl, rfl⟩

end Sample

/-- The validator is slashed for the block 24, which it has proposed as a member. -/
theorem member_slashed :
    ∃ block, Sample.chain.time (block + 1) = 1700000300 ∧
      registrationTime 5 [SampleWorld.deployed.move Sample.joinBlock] ≤ Sample.chain.time block ∧
      Sample.chain.proposer block = 5 ∧ Sample.chain.feeRecipient block ≠ Sample.member.pool.self := by
  have run := Sample.slash_run 1700000300 24 rfl (by decide) (by decide +kernel)
  refine (slashings_since_registration run).mpr ?_ [] _ _ 5 0xbad 1700000300 rfl ⟨_, _, rfl⟩
  intro newer slash older validatorIndex feeRecipient timestamp split slashes
  rcases newer with _ | ⟨first, _ | ⟨second, rest⟩⟩
  · obtain ⟨rfl, rfl⟩ := List.cons.inj split
    obtain ⟨indices, proof, asked⟩ := slashes
    cases asked
    decide +kernel
  · obtain ⟨_, split⟩ := List.cons.inj split
    obtain ⟨rfl, _⟩ := List.cons.inj split
    obtain ⟨indices, proof, asked⟩ := slashes
    exact nomatch asked
  · simp at split

/-- The validator is slashed for the block 9, which lies before its registration in the block 20. -/
theorem newcomer_slashed :
    Run Deployed (fun move => Succeeds move ∧ OnChain Sample.chain move ∧ Genuine Sample.chain move)
      [Sample.member.move (Sample.slashBlock 1700000120), SampleWorld.deployed.move Sample.joinBlock]
      (Sample.member.next (Sample.slashBlock 1700000120)) ∧
    Slashes (Sample.member.move (Sample.slashBlock 1700000120)) 5 0xbad 1700000120 ∧
    ¬ ∃ block, Sample.chain.time (block + 1) = 1700000120 ∧
      registrationTime 5 [SampleWorld.deployed.move Sample.joinBlock] ≤ Sample.chain.time block := by
  refine ⟨Sample.slash_run 1700000120 9 rfl (by decide) (by decide +kernel), ⟨_, _, rfl⟩, ?_⟩
  rintro ⟨block, child, since⟩
  have joined : registrationTime 5 [SampleWorld.deployed.move Sample.joinBlock] = 1700000240 := by decide +kernel
  have time (block : ℕ) : Sample.chain.time block = 1700000000 + 12 * block := rfl
  rw [joined, time] at since
  rw [time] at child
  omega

end SmoothlyPool
