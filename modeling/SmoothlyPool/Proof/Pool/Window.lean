import SmoothlyPool.Proof.Pool.Dispatch

namespace SmoothlyPool

open Pool

variable {B : Type} {G : ReentrancyGuard}

/-- The lock is free where a payment begins. -/
theorem Pool.PaysOut.open {callback : Callback B G} {recipient : Address} {amount : ℕ}
    {s prepared after : Pool B G} (pays : PaysOut callback recipient amount s prepared after) :
    s.status ≠ G.entered := by
  obtain ⟨status, _, opened, _⟩ := pays
  intro locked
  rw [locked, G.before_entered] at opened
  exact nomatch opened

/-- A mild operation makes no payment. -/
def Books.Operation.Mild (operation : Books.Operation) : Prop :=
  ∀ key, operation ≠ .claim key ∧ operation ≠ .leave key

/-- Only a mild operation succeeds behind the lock. -/
theorem Effect.mild {timestamp : ℕ} {msg : Msg} {callback : Callback B G} {s r : Pool B G}
    {operation : Books.Operation} (locked : s.status = G.entered)
    (effect : Effect timestamp msg callback s operation r) : operation.Mild := by
  cases effect with
  | hold => exact fun key => ⟨nofun, nofun⟩
  | settle opens => exact fun key => ⟨nofun, nofun⟩
  | enrol opens bonded action => exact fun key => ⟨nofun, nofun⟩
  | bank opens action => exact fun key => ⟨nofun, nofun⟩
  | claim map opens settles registered shared enough solvent priced sent =>
      subst settles
      exact absurd locked sent.open
  | leave map opens settles present releasable bonded sent =>
      subst settles
      exact absurd locked sent.open

/-- A mild operation leaves the lock alone. -/
theorem Effect.status {timestamp : ℕ} {msg : Msg} {callback : Callback B G} {s r : Pool B G}
    {operation : Books.Operation} (effect : Effect timestamp msg callback s operation r)
    (mild : operation.Mild) : r.status = s.status := by
  cases effect with
  | hold => rfl
  | settle opens => rfl
  | enrol opens bonded action => rfl
  | bank opens action => rfl
  | claim map opens settles registered shared enough solvent priced sent => exact absurd rfl (mild _).1
  | leave map opens settles present releasable bonded sent => exact absurd rfl (mild _).2

variable [Bytes32 B] [DecidableEq B]

/-- A property that every call keeps survives a list of calls. -/
theorem executeAll_invariant {env : Env B} (holds : Pool B G → Prop) (calls : List (Call B)) (s : Pool B G)
    (keeps : ∀ call ∈ calls, ∀ s r, holds s → call.execute env s = .ok r → holds r) (held : holds s) :
    holds (executeAll env calls s) := by
  induction calls generalizing s with
  | nil => exact held
  | cons call rest ih =>
      have later := fun other old => keeps other (List.mem_cons_of_mem call old)
      rw [executeAll]
      cases result : call.execute env s with
      | ok next => exact ih next later (keeps call List.mem_cons_self s next held result)
      | error _ => exact ih s later held

/-- A window runs the calls of the recipient on the locked pool.
A payment to the pool itself runs no call and keeps the ETH. -/
theorem Pool.PaysOut.window {env : Env B} {call : Call B} {recipient : Address} {amount : ℕ}
    {s prepared after : Pool B G} (idle : s.status = G.notEntered)
    (pays : PaysOut (call.callback env) recipient amount s prepared after) :
    amount ≤ prepared.balance ∧
    ∃ calls balance, (calls = [] ∧ balance = prepared.balance ∨
        calls = call.reentry ∧ balance = prepared.balance - amount) ∧
      after = nonReentrantAfter (executeAll env calls (prepared.enter balance)) := by
  obtain ⟨status, paid, opened, ⟨enough, sent⟩, rfl⟩ := pays
  rw [idle, G.before_notEntered] at opened
  obtain rfl := Option.some.inj opened
  refine ⟨enough, ?_⟩
  by_cases own : recipient = prepared.self
  · rw [if_pos own] at sent
    subst sent
    exact ⟨[], prepared.balance, .inl ⟨rfl, rfl⟩, rfl⟩
  · rw [if_neg own, Call.callback] at sent
    split_ifs at sent
    obtain rfl := Except.ok.inj sent
    exact ⟨call.reentry, prepared.balance - amount, .inr ⟨rfl, rfl⟩, rfl⟩

/-- A payment goes through only when its recipient takes it. -/
theorem Pool.PaysOut.accepts {env : Env B} {call : Call B} {recipient : Address} {amount : ℕ}
    {s prepared after : Pool B G} (pays : PaysOut (call.callback env) recipient amount s prepared after) :
    recipient = prepared.self ∨ call.accepts = true := by
  obtain ⟨status, paid, _, ⟨_, sent⟩, _⟩ := pays
  by_cases own : recipient = prepared.self
  · exact .inl own
  · rw [if_neg own, Call.callback] at sent
    split_ifs at sent with accepts
    exact .inr accepts

end SmoothlyPool
