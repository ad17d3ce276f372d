import SmoothlyPool.Proof.Pool.Window

namespace SmoothlyPool

open Checked Pool

variable {B : Type} {G : ReentrancyGuard}

/-- The lock of a pool that no guarded function runs on is free, and otherwise it is taken. -/
def Pool.Guarded (s : Pool B G) : Prop := s.status = G.notEntered ∨ s.status = G.entered

/-- Two recipients agree when they do the same behind the lock. -/
def Agree (callback other : Callback B G) : Prop :=
  ∀ paid : Pool B G, paid.status = G.entered → callback paid = other paid

section Congruence

variable {callback other : Callback B G} {s : Pool B G}

/-- The lock is taken behind its entry. -/
theorem Pool.Guarded.entered {entered : Pool B G} (guarded : s.Guarded)
    (success : nonReentrantBefore s = .ok entered) : entered.status = G.entered := by
  obtain ⟨status, opened, rfl⟩ := nonReentrantBefore_eq_ok.mp success
  rcases guarded with idle | locked
  · rw [idle, G.before_notEntered] at opened
    exact (Option.some.inj opened).symm
  · rw [locked, G.before_entered] at opened
    cases opened

theorem Agree.sendEther (agree : Agree callback other) (locked : s.status = G.entered)
    (recipient : Address) (amount : ℕ) :
    s.sendEther callback recipient amount = s.sendEther other recipient amount := by
  unfold Pool.sendEther
  rw [agree { s with balance := s.balance - amount } locked]

theorem Agree.internalExit (agree : Agree callback other) (guarded : s.Guarded) (key : Word)
    (recipient : Address) : s.internalExit callback key recipient = s.internalExit other key recipient := by
  unfold Pool.internalExit
  refine bind_congr_ok fun entered success => bind_congr_ok fun released subtracts =>
    bind_congr_ok fun totalBond _ => ?_
  have locked := guarded.entered success
  obtain ⟨_, rfl⟩ := releaseShares_ok subtracts
  dsimp only
  rw [agree.sendEther]
  exact locked

theorem Agree.internalWithdraw (agree : Agree callback other) (guarded : s.Guarded) (validator : Validator) :
    s.internalWithdraw callback validator = s.internalWithdraw other validator := by
  unfold Pool.internalWithdraw
  refine bind_congr_ok fun entered success => bind_congr_ok fun _ _ => bind_congr_ok fun share _ =>
    bind_congr_ok fun scaled _ => bind_congr_ok fun part _ => bind_congr_ok fun total _ =>
    bind_congr_ok fun product _ => bind_congr_ok fun eth _ => bind_congr_ok fun smooths _ => ?_
  have locked := guarded.entered success
  dsimp only
  rw [agree.sendEther]
  exact locked

theorem Pool.Guarded.rebalanced {timestamp : ℕ} {c : Pool B G} (guarded : s.Guarded)
    (success : s.internalRebalance timestamp = .ok c) : c.Guarded := by
  obtain ⟨_, rfl⟩ := internalRebalance_eq_ok.mp success
  exact guarded

variable [Bytes32 B] [DecidableEq B]

/-- The outcome of a call depends only on what the recipient does behind the lock. -/
theorem Agree.dispatch (agree : Agree callback other) (guarded : s.Guarded) (env : Env B) (msg : Msg)
    (message : Message B) : dispatch env msg callback s message = dispatch env msg other s message := by
  cases message with
  | receive => rfl
  | donateETH => rfl
  | register validatorIndex validatorProof validator ts => rfl
  | rebalance => rfl
  | withdraw indices proof validatorIndex timestamp =>
      refine bind_congr_ok fun _ _ => bind_congr_ok fun c settles => bind_congr_ok fun _ _ =>
        bind_congr_ok fun _ _ => bind_congr_ok fun _ _ => bind_congr_ok fun _ _ =>
        bind_congr_ok fun verified _ => ?_
      have closed := guarded.rebalanced settles
      dsimp only
      rw [agree.internalWithdraw]
      exact closed
  | updateValidator validatorIndex validatorProof validator ts =>
      refine bind_congr_ok fun _ _ => bind_congr_ok fun c settles => bind_congr_ok fun _ _ =>
        bind_congr_ok fun _ _ => bind_congr_ok fun _ _ => bind_congr_ok fun _ _ => ?_
      rw [agree.internalExit (guarded.rebalanced settles)]
  | slashBadFeeRecipient indices proof validatorIndex feeRecipient timestamp =>
      refine bind_congr_ok fun _ _ => bind_congr_ok fun c settles => bind_congr_ok fun _ _ =>
        bind_congr_ok fun verified _ => bind_congr_ok fun _ _ => ?_
      have closed := guarded.rebalanced settles
      rw [agree.internalExit]
      exact closed
  | exit validatorIndex =>
      refine bind_congr_ok fun _ _ => bind_congr_ok fun c settles => bind_congr_ok fun _ _ => ?_
      exact agree.internalExit (guarded.rebalanced settles) _ _

end Congruence

section Nested

variable [Bytes32 B] [DecidableEq B]

/-- A call hands control over at a pool when its outcome depends on what the recipient does there. -/
def HandsOver (env : Env B) (call : Call B) (s paid : Pool B G) : Prop :=
  ∃ callback other : Callback B G, (∀ elsewhere, elsewhere ≠ paid → callback elsewhere = other elsewhere) ∧
    dispatch env call.msg callback (s.receive call.msg) call.message ≠
      dispatch env call.msg other (s.receive call.msg) call.message

/-- The inner call runs on the second pool while the outer call runs on the first pool: the recipient of
the outer call makes it after its earlier calls, or it runs inside such a call. -/
inductive Inside (env : Env B) : Call B → Pool B G → Call B → Pool B G → Prop
  | direct {call inner : Call B} {s paid : Pool B G} {earlier later : List (Call B)}
      (hands : HandsOver env call s paid) (listed : call.reentry = earlier ++ inner :: later) :
      Inside env call s inner (executeAll env earlier paid)
  | deeper {call middle inner : Call B} {s t u : Pool B G} (outer : Inside env call s middle t)
      (nested : Inside env middle t inner u) : Inside env call s inner u

theorem HandsOver.locked {env : Env B} {call : Call B} {s paid : Pool B G} (guarded : s.Guarded)
    (hands : HandsOver env call s paid) : paid.status = G.entered := by
  obtain ⟨callback, other, elsewhere, differs⟩ := hands
  by_contra idle
  have agree : Agree callback other := by
    intro pool locked
    apply elsewhere
    rintro rfl
    exact idle locked
  have received : (s.receive call.msg).Guarded := guarded
  exact differs (agree.dispatch received env call.msg call.message)

/-- The calls of a recipient leave the lock taken. -/
theorem executeAll_locked {env : Env B} {s : Pool B G} (calls : List (Call B))
    (locked : s.status = G.entered) : (executeAll env calls s).status = G.entered := by
  refine executeAll_invariant (fun s => s.status = G.entered) calls s ?_ locked
  intro call _ s r closed success
  rw [Call.execute_eq] at success
  obtain ⟨operation, _, effect⟩ := dispatch_ok success
  have mild : operation.Mild := by
    apply effect.mild
    exact closed
  exact (effect.status mild).trans closed

/-- A nested call finds the lock taken. -/
theorem Inside.locked {env : Env B} {call inner : Call B} {s t : Pool B G} (guarded : s.Guarded)
    (inside : Inside env call s inner t) : t.status = G.entered := by
  induction inside with
  | direct hands listed => exact executeAll_locked _ (hands.locked guarded)
  | deeper outer nested outerLocked nestedLocked => exact nestedLocked (.inr (outerLocked guarded))

/-- A nested call makes no payment. -/
theorem Inside.mild {env : Env B} {call inner : Call B} {s t r : Pool B G} (guarded : s.Guarded)
    (inside : Inside env call s inner t) (success : inner.execute env t = .ok r) :
    ∃ operation, Performs env inner.message operation ∧ operation.Mild := by
  have locked := inside.locked guarded
  rw [Call.execute_eq] at success
  obtain ⟨operation, performs, effect⟩ := dispatch_ok success
  refine ⟨operation, performs, ?_⟩
  apply effect.mild
  exact locked

end Nested

end SmoothlyPool
