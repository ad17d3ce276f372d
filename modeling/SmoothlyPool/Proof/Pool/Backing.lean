import SmoothlyPool.Proof.Pool.Membership
import SmoothlyPool.Proof.Pool.Reward

namespace SmoothlyPool

open Checked Pool Transition

variable {B : Type} {G : ReentrancyGuard}

/-- The validator has proposed the proven block, and the fees of that block went to the pool. -/
def Backed (chain : Chain B) (move : Move (World B G) (Input B)) : Prop :=
  ∀ validatorIndex timestamp block, Withdraws move validatorIndex timestamp →
    chain.time (block + 1) = timestamp.toNat →
    chain.proposer block = validatorIndex ∧ chain.feeRecipient block = move.before.pool.self

variable [Bytes32 B] [DecidableEq B]

/-- A successful withdrawal finds a registered validator and a root for the timestamp. -/
theorem Withdraws.found {move : Move (World B G) (Input B)} {validatorIndex : Word} {timestamp : Uint64}
    (withdraws : Withdraws move validatorIndex timestamp) (succeeds : Succeeds move) :
    (move.before.pool.validators validatorIndex).Registered ∧
    ∃ root, move.label.env.beaconRoots timestamp = some root := by
  obtain ⟨indices, proof, asked⟩ := withdraws
  obtain ⟨_, _, executes⟩ := succeeds
  rw [Call.execute_eq, asked] at executes
  have success : Pool.withdraw _ _ _ indices proof validatorIndex timestamp _ = .ok _ := executes
  simp only [Pool.withdraw, nonPayable, bind_eq_ok, require_eq_ok] at success
  obtain ⟨_, _, c, settles, _, registered, _, _, _, _, _, _, _, verified, _⟩ := success
  obtain ⟨_, rfl⟩ := internalRebalance_eq_ok.mp settles
  have records : (move.before.pool.begin move.label.fresh).validators = move.before.pool.validators :=
    congrArg Books.validators (begin_books move.label.fresh move.before.pool)
  refine ⟨?_, verifyFeeRecipient_found verified⟩
  rw [checkpoint_validators] at registered
  rw [← records]
  exact registered

/-- Every withdrawal of a run is backed by a block that the validator proposed as a member, exactly when the
timestamp of every withdrawal is later than the registration. -/
theorem withdrawals_since_registration {chain : Chain B} {trace : List (Move (World B G) (Input B))}
    {world : World B G}
    (run : Run Deployed (fun move => Succeeds move ∧ OnChain chain move ∧ Backed chain move) trace world) :
    (∀ newer withdrawal older validatorIndex timestamp, trace = newer ++ withdrawal :: older →
      Withdraws withdrawal validatorIndex timestamp →
      ∃ block, chain.time (block + 1) = timestamp.toNat ∧
        registrationTime validatorIndex older ≤ chain.time block ∧
        chain.proposer block = validatorIndex ∧ chain.feeRecipient block = withdrawal.before.pool.self) ↔
    (∀ newer withdrawal older validatorIndex timestamp, trace = newer ++ withdrawal :: older →
      Withdraws withdrawal validatorIndex timestamp →
      registrationTime validatorIndex older < timestamp.toNat) := by
  constructor
  · intro since newer withdrawal older validatorIndex timestamp split withdraws
    obtain ⟨block, child, joined, _⟩ := since _ _ _ _ _ split withdraws
    rw [← child]
    exact joined.trans_lt (chain.increasing (Nat.lt_succ_self block))
  · intro late newer withdrawal older validatorIndex timestamp split withdraws
    have before := late _ _ _ _ _ split withdraws
    subst split
    obtain ⟨⟨succeeds, placed, backed⟩, earlier⟩ := run.split
    obtain ⟨registered, root, found⟩ := withdraws.found succeeds
    obtain ⟨block, child, since⟩ := placed.proven (earlier.weaken fun _ all => ⟨all.1, all.2.1⟩) registered found
    obtain ⟨proposed, recipient⟩ := backed _ _ block withdraws child
    exact ⟨block, child, since.mpr before, proposed, recipient⟩

namespace Sample

/-- The validator 5 proposes every block of this chain and pays its fees to the pool.
The proof of its record is against the root of the block 151179. -/
def honestChain : Chain Term where
  time block := 1700000000 + 12 * block
  increasing := slots_increasing
  root block := if block = 151179 then validatorRoot 5 (.sample 32000000000 1000000) else blockRoot 5 0xabc
  proposer _ := 5
  feeRecipient _ := 0xabc

/-- The validator registers in the block 151190. -/
def joinShortly : Input Term := register 1701814280 1701814160 5 (.sample 32000000000 1000000)

@[irreducible] def newMember : SampleWorld := SampleWorld.deployed.next joinShortly

/-- The withdrawal in the block 151205 is the first call after the period. -/
def withdrawBlock (ts : Uint64) : Input Term := withdraw 1701814460 ts 5

theorem newMember_run :
    Run Deployed (fun move => Succeeds move ∧ OnChain honestChain move ∧ Backed honestChain move)
      [SampleWorld.deployed.move joinShortly] newMember := by
  unfold newMember
  refine World.run_move joinShortly (.start SampleWorld.deployed_deployed)
    ⟨World.move_succeeds (by decide +kernel),
      onChain_answering 151190 151179 rfl rfl rfl (by simp [honestChain]), ?_⟩
  rintro validatorIndex timestamp block ⟨indices, proof, asked⟩
  cases asked

/-- A withdrawal with the timestamp of another block than the block 151180 proves a block of the chain. -/
theorem withdraw_run (ts : Uint64) (block : ℕ) (child : honestChain.time (block + 1) = ts.toNat)
    (other : block ≠ 151179) (succeeds : (newMember.call (withdrawBlock ts)).isOk = true)
    (same : newMember.pool.self = 0xabc) :
    Run Deployed (fun move => Succeeds move ∧ OnChain honestChain move ∧ Backed honestChain move)
      [newMember.move (withdrawBlock ts), SampleWorld.deployed.move joinShortly]
      (newMember.next (withdrawBlock ts)) := by
  refine World.run_move (withdrawBlock ts) newMember_run
    ⟨World.move_succeeds succeeds, onChain_answering 151205 block rfl rfl child (if_neg other), ?_⟩
  rintro validatorIndex timestamp block ⟨indices, proof, asked⟩ _
  cases asked
  exact ⟨rfl, same.symm⟩

end Sample

/-- The withdrawal with the newest timestamp is backed by the block 151204. -/
theorem newMember_backed :
    ∃ block, Sample.honestChain.time (block + 1) = 1701814460 ∧
      registrationTime 5 [SampleWorld.deployed.move Sample.joinShortly] ≤ Sample.honestChain.time block ∧
      Sample.honestChain.proposer block = 5 ∧
      Sample.honestChain.feeRecipient block = Sample.newMember.pool.self := by
  have run := Sample.withdraw_run 1701814460 151204 rfl (by decide) (by decide +kernel) (by decide +kernel)
  refine (withdrawals_since_registration run).mpr ?_ [] _ _ 5 1701814460 rfl ⟨_, _, rfl⟩
  intro newer withdrawal older validatorIndex timestamp split withdraws
  rcases newer with _ | ⟨first, _ | ⟨second, rest⟩⟩
  · obtain ⟨rfl, rfl⟩ := List.cons.inj split
    obtain ⟨indices, proof, asked⟩ := withdraws
    cases asked
    decide +kernel
  · obtain ⟨_, split⟩ := List.cons.inj split
    obtain ⟨rfl, _⟩ := List.cons.inj split
    obtain ⟨indices, proof, asked⟩ := withdraws
    exact nomatch asked
  · simp at split

/-- The withdrawal with the timestamp of the registration proves the block before the registration. -/
theorem newMember_unbacked :
    Run Deployed
      (fun move => Succeeds move ∧ OnChain Sample.honestChain move ∧ Backed Sample.honestChain move)
      [Sample.newMember.move (Sample.withdrawBlock 1701814280), SampleWorld.deployed.move Sample.joinShortly]
      (Sample.newMember.next (Sample.withdrawBlock 1701814280)) ∧
    Withdraws (Sample.newMember.move (Sample.withdrawBlock 1701814280)) 5 1701814280 ∧
    ¬ ∃ block, Sample.honestChain.time (block + 1) = 1701814280 ∧
      registrationTime 5 [SampleWorld.deployed.move Sample.joinShortly] ≤ Sample.honestChain.time block := by
  refine ⟨Sample.withdraw_run 1701814280 151189 rfl (by decide) (by decide +kernel) (by decide +kernel),
    ⟨_, _, rfl⟩, ?_⟩
  rintro ⟨block, child, since⟩
  have joined : registrationTime 5 [SampleWorld.deployed.move Sample.joinShortly] = 1701814280 := by
    decide +kernel
  have time (block : ℕ) : Sample.honestChain.time block = 1700000000 + 12 * block := rfl
  rw [joined, time] at since
  rw [time] at child
  omega

end SmoothlyPool
