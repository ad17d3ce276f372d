import SmoothlyPool.Proof.Pool.Window
import SmoothlyPool.Proof.Pool.Refine

namespace SmoothlyPool

open Pool Transition

/-- Every part of a call keeps the property. -/
structure Books.Kept (holds : Books → Prop) : Prop where
  checkpoint : ∀ timestamp b, b.Opens timestamp → holds b → holds (b.checkpoint timestamp)
  action : ∀ timestamp b operation next, b.lastRebalance ≤ timestamp → operation.Mild →
    Books.Action timestamp b operation next → holds b → holds next
  consume : ∀ share b, holds b → holds (b.consume share)
  restart : ∀ key b, holds b → holds (b.restart key)
  release : ∀ validator b, holds b → holds (b.release validator)
  remove : ∀ key b, holds b → holds (b.remove key)

variable {B : Type} {G : ReentrancyGuard} {holds : Books → Prop}

/-- A mild effect keeps the property. -/
theorem Books.Kept.mild {timestamp : ℕ} {msg : Msg} {callback : Callback B G} {s r : Pool B G}
    {operation : Books.Operation} (kept : Books.Kept holds)
    (effect : Effect timestamp msg callback s operation r) (mild : operation.Mild) (held : holds s.books) :
    holds r.books := by
  cases effect with
  | hold => exact held
  | settle opens => exact kept.checkpoint timestamp s.books opens held
  | enrol opens bonded action =>
      have current := (Books.checkpoint_lastRebalance_le opens.ordered).2
      exact kept.action timestamp _ _ _ current mild action (kept.checkpoint timestamp s.books opens held)
  | bank opens action =>
      have current := (Books.checkpoint_lastRebalance_le opens.ordered).2
      exact kept.action timestamp _ _ _ current mild action (kept.checkpoint timestamp s.books opens held)
  | claim map opens settles registered shared enough solvent priced sent => exact absurd rfl (mild _).1
  | leave map opens settles present releasable bonded sent => exact absurd rfl (mild _).2

variable [Bytes32 B]

theorem Deployed.idle {world : World B G} (deployed : Deployed world) : world.pool.status = G.notEntered := by
  obtain ⟨self, balance, created⟩ := deployed
  rw [created]
  rfl

variable [DecidableEq B]

/-- The calls of a recipient keep the property, and the lock stays taken. -/
theorem Books.Kept.window {s : Pool B G} (kept : Books.Kept holds) (env : Env B) (calls : List (Call B))
    (locked : s.status = G.entered) (held : holds s.books) :
    (executeAll env calls s).status = G.entered ∧ holds (executeAll env calls s).books := by
  refine executeAll_invariant (fun s => s.status = G.entered ∧ holds s.books) calls s ?_ ⟨locked, held⟩
  rintro call _ s r ⟨locked, held⟩ success
  rw [Call.execute_eq] at success
  obtain ⟨operation, _, effect⟩ := dispatch_ok success
  have mild : operation.Mild := by
    apply effect.mild
    exact locked
  exact ⟨(effect.status mild).trans locked, kept.mild effect mild held⟩

/-- A call on the idle pool keeps the property, and the pool is idle afterwards. -/
theorem Books.Kept.effect {env : Env B} {call : Call B} {msg : Msg} {s r : Pool B G}
    {operation : Books.Operation} (kept : Books.Kept holds) (idle : s.status = G.notEntered)
    (effect : Effect env.timestamp msg (call.callback env) s operation r) (held : holds s.books) :
    r.status = G.notEntered ∧ holds r.books := by
  by_cases mild : operation.Mild
  · exact ⟨(effect.status mild).trans idle, kept.mild effect mild held⟩
  cases effect with
  | hold => exact absurd (fun key => ⟨nofun, nofun⟩) mild
  | settle opens => exact absurd (fun key => ⟨nofun, nofun⟩) mild
  | enrol opens bonded action => exact absurd (fun key => ⟨nofun, nofun⟩) mild
  | bank opens action => exact absurd (fun key => ⟨nofun, nofun⟩) mild
  | @claim key c after share eth map opens settles registered shared enough solvent priced sent =>
      have settled : holds (c.books.consume share) := by
        rw [settles]
        exact kept.consume share _ (kept.checkpoint _ _ opens held)
      have unlocked : c.status = G.notEntered := by rw [settles]; exact idle
      obtain ⟨_, calls, balance, _, rfl⟩ := sent.window unlocked
      obtain ⟨locked, closed⟩ := kept.window (s := (c.consume share).enter balance) env calls rfl settled
      exact ⟨(congrArg G.after locked).trans G.after_entered, kept.restart key _ closed⟩
  | @leave key recipient c after map opens settles present releasable bonded sent =>
      have released : holds (c.books.release (c.validators key)) := by
        rw [settles]
        exact kept.release _ _ (kept.checkpoint _ _ opens held)
      have unlocked : c.status = G.notEntered := by rw [settles]; exact idle
      obtain ⟨_, calls, balance, _, rfl⟩ := sent.window unlocked
      obtain ⟨locked, closed⟩ := kept.window (s := (c.release (c.validators key)).enter balance) env calls
        rfl released
      exact ⟨(congrArg G.after locked).trans G.after_entered, kept.remove key _ closed⟩

theorem Books.Kept.succeeds {move : Move (World B G) (Input B)} (kept : Books.Kept holds)
    (succeeds : Succeeds move) (idle : move.before.pool.status = G.notEntered)
    (held : holds move.before.pool.books) :
    move.after.pool.status = G.notEntered ∧ holds move.after.pool.books := by
  obtain ⟨_, _, executes⟩ := succeeds
  rw [Call.execute_eq] at executes
  obtain ⟨operation, _, effect⟩ := dispatch_ok executes
  have begun := Pool.begin_books move.label.fresh move.before.pool
  apply kept.effect _ effect
  · show holds (move.before.pool.begin move.label.fresh).books
    rwa [begun]
  · exact (Pool.begin_status move.label.fresh move.before.pool).trans idle

/-- A kept property that the deployed pool has holds after every run, whatever calls the recipients of
ETH make. -/
theorem Books.Kept.run {trace : List (Move (World B G) (Input B))} {world : World B G}
    (kept : Books.Kept holds) (starts : ∀ world : World B G, Deployed world → holds world.pool.books)
    (run : Run Deployed Succeeds trace world) :
    world.pool.status = G.notEntered ∧ holds world.pool.books := by
  apply run.invariant (fun world => world.pool.status = G.notEntered ∧ holds world.pool.books)
  · exact fun world deployed => ⟨deployed.idle, starts world deployed⟩
  · exact fun _ succeeds earlier => kept.succeeds succeeds earlier.1 earlier.2

/-- A kept property that holds after one move of a run holds at its end. -/
theorem Books.Kept.since {newer older : List (Move (World B G) (Input B))}
    {move : Move (World B G) (Input B)} {world : World B G} (kept : Books.Kept holds)
    (idle : move.after.pool.status = G.notEntered) (first : holds move.after.pool.books)
    (run : Run Deployed Succeeds (newer ++ move :: older) world) :
    world.pool.status = G.notEntered ∧ holds world.pool.books := by
  apply run.since (fun world => world.pool.status = G.notEntered ∧ holds world.pool.books)
  · exact fun _ succeeds earlier => kept.succeeds succeeds earlier.1 earlier.2
  · exact ⟨idle, first⟩

end SmoothlyPool
