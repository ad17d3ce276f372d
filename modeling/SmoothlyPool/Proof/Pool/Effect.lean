import SmoothlyPool.Proof.Pool.Books

namespace SmoothlyPool

open Checked

namespace Pool

variable {B : Type} {G : ReentrancyGuard}

/-- These are the accounting fields of the pool. -/
def books (s : Pool B G) : Books where
  lastRebalance := s.lastRebalance
  totalEB := s.totalEB
  smooths := s.smooths
  pendingEB := s.pendingEB
  pendingSmooths := s.pendingSmooths
  validators := s.validators

/-- This function replaces the accounting fields of the pool. -/
def withBooks (s : Pool B G) (b : Books) : Pool B G :=
  { s with
    lastRebalance := b.lastRebalance
    totalEB := b.totalEB
    smooths := b.smooths
    pendingEB := b.pendingEB
    pendingSmooths := b.pendingSmooths
    validators := b.validators }

@[simp] theorem books_validators (s : Pool B G) : s.books.validators = s.validators := rfl

@[simp] theorem books_lastRebalance (s : Pool B G) : s.books.lastRebalance = s.lastRebalance := rfl

/-- This is the pool after a rebalance at the timestamp. -/
def checkpoint (timestamp : ℕ) (s : Pool B G) : Pool B G := s.withBooks (s.books.checkpoint timestamp)

/-- This is the pool after the claimed share has left `smooths`. -/
def consume (share : ℕ) (s : Pool B G) : Pool B G := s.withBooks (s.books.consume share)

/-- This is the pool after the record of a withdrawal has been restarted. -/
def restart (key : Word) (s : Pool B G) : Pool B G := s.withBooks (s.books.restart key)

/-- This is the pool after `_exit` has taken the validator and its bond out of the aggregates. -/
def release (validator : Validator) (s : Pool B G) : Pool B G :=
  { s.withBooks (s.books.release validator) with totalBond := s.totalBond - validator.bond }

/-- This is the pool after the record of a validator has been deleted. -/
def remove (key : Word) (s : Pool B G) : Pool B G := s.withBooks (s.books.remove key)

/-- This is the pool inside the window of a payment. -/
def enter (balance : ℕ) (s : Pool B G) : Pool B G := { s with status := G.entered, balance := balance }

@[simp] theorem restart_books (key : Word) (s : Pool B G) : (s.restart key).books = s.books.restart key := rfl

@[simp] theorem remove_books (key : Word) (s : Pool B G) : (s.remove key).books = s.books.remove key := rfl

@[simp] theorem checkpoint_validators (timestamp : ℕ) (s : Pool B G) :
    (s.checkpoint timestamp).validators = s.validators := Books.checkpoint_validators timestamp s.books

/-- A rebalance gives the checkpoint exactly when the books open. -/
theorem internalRebalance_eq_ok {timestamp : ℕ} {s r : Pool B G} :
    internalRebalance timestamp s = .ok r ↔ s.books.Opens timestamp ∧ s.checkpoint timestamp = r := by
  simp only [internalRebalance, bind_eq_ok, sub_eq_ok]
  by_cases due : REBALANCE_PERIOD < timestamp - s.lastRebalance
  · have advanced := Books.checkpoint_due (b := s.books) due
    constructor
    · rintro ⟨_, ⟨ordered, rfl⟩, rest⟩
      rw [if_pos due] at rest
      simp only [bind_eq_ok, sub_eq_ok, mul_eq_ok, add_eq_ok] at rest
      obtain ⟨_, ⟨_, rfl⟩, _, ⟨_, rfl⟩, _, ⟨_, rfl⟩, _, ⟨_, rfl⟩, _, ⟨_, rfl⟩, _, ⟨smoothsFit, rfl⟩, _,
        ⟨balanceFits, rfl⟩, same⟩ := rest
      refine ⟨⟨ordered, fun _ => ?_⟩, ?_⟩
      · rw [advanced]
        exact ⟨smoothsFit, balanceFits⟩
      · rw [checkpoint, advanced]
        exact Except.ok.inj same
    · rintro ⟨⟨ordered, fits⟩, rfl⟩
      obtain ⟨smoothsFit, balanceFits⟩ := fits due
      rw [advanced] at smoothsFit balanceFits
      simp only [books] at smoothsFit balanceFits
      refine ⟨_, ⟨ordered, rfl⟩, ?_⟩
      rw [if_pos due, mul_ok (by omega), ok_bind, sub_ok (by omega), ok_bind, mul_ok (by omega), ok_bind,
        add_ok (by omega), ok_bind, add_ok (by omega), ok_bind, add_ok (by omega), ok_bind, add_ok (by omega), ok_bind,
        checkpoint, advanced]
      rfl
  · have early := Books.checkpoint_early (b := s.books) due
    constructor
    · rintro ⟨_, ⟨ordered, rfl⟩, rest⟩
      rw [if_neg due] at rest
      refine ⟨⟨ordered, fun late => absurd late due⟩, ?_⟩
      rw [checkpoint, early]
      exact Except.ok.inj rest
    · rintro ⟨⟨ordered, _⟩, rfl⟩
      refine ⟨_, ⟨ordered, rfl⟩, ?_⟩
      rw [if_neg due, checkpoint, early]
      rfl

theorem internalRebalance_of_opens {timestamp : ℕ} {s : Pool B G} (opens : s.books.Opens timestamp) :
    internalRebalance timestamp s = .ok (s.checkpoint timestamp) := internalRebalance_eq_ok.mpr ⟨opens, rfl⟩

/-- A rebalance that is not due leaves the pool alone. -/
theorem internalRebalance_early {timestamp : ℕ} {s : Pool B G} (ordered : s.lastRebalance ≤ timestamp)
    (early : timestamp - s.lastRebalance ≤ REBALANCE_PERIOD) : internalRebalance timestamp s = .ok s := by
  rw [internalRebalance, sub_ok ordered, ok_bind, if_neg (Nat.not_lt_of_le early)]

theorem allocateSmooths_ok {effectiveBalance : Uint64} {timestamp : ℕ} {s r : Pool B G}
    (success : allocateSmooths effectiveBalance.toNat timestamp s = .ok r) :
    timestamp - s.lastRebalance ≤ REBALANCE_PERIOD ∧
    r = s.withBooks (s.books.allocate effectiveBalance timestamp) := by
  simp only [allocateSmooths, bind_eq_ok, sub_eq_ok, mul_eq_ok, add_eq_ok] at success
  obtain ⟨_, ⟨_, rfl⟩, _, ⟨_, rfl⟩, _, ⟨inside, rfl⟩, _, ⟨_, rfl⟩, _, ⟨_, rfl⟩, same⟩ := success
  exact ⟨inside, (Except.ok.inj same).symm⟩

/-- The share of a settled validator is its claimable share. -/
theorem getShares_ok {s : Pool B G} {validator : Validator} {share : ℕ}
    (settled : ¬ s.lastRebalance ≤ validator.start) (success : getShares validator s = .ok share) :
    share = validator.claimable s.lastRebalance := by
  simp only [getShares, bind_eq_ok, sub_eq_ok, mul_eq_ok, add_eq_ok] at success
  obtain ⟨_, ⟨_, rfl⟩, _, ⟨_, rfl⟩, _, rfl⟩ := success
  rw [Validator.claimable, if_neg settled]

/-- The share of a settled validator is computed when it fits in 256 bits. -/
theorem getShares_of_lt {s : Pool B G} {validator : Validator}
    (settled : ¬ s.lastRebalance ≤ validator.start) (fits : validator.claimable s.lastRebalance < 2 ^ 256) :
    getShares validator s = .ok (validator.claimable s.lastRebalance) := by
  have claimed : validator.claimable s.lastRebalance =
      (s.lastRebalance - validator.start) * validator.effectiveBalance.toNat + validator.smooths :=
    if_neg settled
  rw [claimed] at fits
  unfold getShares
  rw [sub_ok (by omega), ok_bind, mul_ok (by omega), ok_bind, add_ok (by omega), claimed]

/-- `_withdraw` selects the claimable share. -/
theorem claimedShare_ok {s : Pool B G} {validator : Validator} {share : ℕ}
    (success : claimedShare validator s = .ok share) :
    share = validator.claimable s.lastRebalance := by
  unfold claimedShare at success
  split_ifs at success with pending
  · rw [Validator.claimable, if_pos pending]
    exact (Except.ok.inj success).symm
  · exact getShares_ok pending success

theorem claimedShare_of_lt {s : Pool B G} {validator : Validator}
    (fits : validator.claimable s.lastRebalance < 2 ^ 256) :
    claimedShare validator s = .ok (validator.claimable s.lastRebalance) := by
  unfold claimedShare
  split_ifs with pending
  · rw [Validator.claimable, if_pos pending]
  · exact getShares_of_lt pending fits

/-- The ETH leaves the pool, and the code of the recipient runs.
A transfer to the pool itself changes nothing. -/
def Paid (callback : Callback B G) (recipient : Address) (amount : ℕ) (s paid : Pool B G) : Prop :=
  amount ≤ s.balance ∧
  if recipient = s.self then paid = s
  else callback { s with balance := s.balance - amount } = .ok paid

theorem sendEther_eq_ok {callback : Callback B G} {recipient : Address} {amount : ℕ}
    {s paid : Pool B G} :
    sendEther callback recipient amount s = .ok paid ↔ Paid callback recipient amount s paid := by
  unfold sendEther Paid
  by_cases short : s.balance < amount
  · simp [short]
  · have enough := Nat.le_of_not_lt short
    rw [if_neg short]
    by_cases own : recipient = s.self
    · simp [own, enough, eq_comm]
    · simp only [if_neg own, enough, true_and]
      cases callback { s with balance := s.balance - amount } <;> simp

/-- A recipient that accepts ETH is paid, and so is the pool itself. -/
theorem sendEther_of_accepts {callback : Callback B G} {recipient : Address} {amount : ℕ} {s : Pool B G}
    (affordable : amount ≤ s.balance)
    (accepts : recipient = s.self ∨ ∀ paid, ∃ left, callback paid = .ok left) :
    ∃ paid, sendEther callback recipient amount s = .ok paid := by
  by_cases own : recipient = s.self
  · exact ⟨s, sendEther_eq_ok.mpr ⟨affordable, by rw [if_pos own]⟩⟩
  · obtain ⟨left, accepted⟩ := accepts.resolve_left own { s with balance := s.balance - amount }
    exact ⟨left, sendEther_eq_ok.mpr ⟨affordable, by rwa [if_neg own]⟩⟩

theorem nonReentrantBefore_eq_ok {s entered : Pool B G} :
    nonReentrantBefore s = .ok entered ↔
      ∃ status, G.before s.status = some status ∧ entered = { s with status := status } := by
  unfold nonReentrantBefore
  cases G.before s.status <;> simp [eq_comm]

theorem nonReentrantBefore_idle {s : Pool B G} (idle : s.status = G.notEntered) :
    nonReentrantBefore s = .ok { s with status := G.entered } := by
  rw [nonReentrantBefore, idle, G.before_notEntered]

theorem totalETH_eq_ok {s : Pool B G} {total : ℕ} :
    totalETH s = .ok total ↔ s.totalBond ≤ s.balance ∧ s.balance - s.totalBond = total := sub_eq_ok

/-- The aggregates after `_exit` are the released ones, and no subtraction underflowed. -/
theorem releaseShares_ok {validator : Validator} {s r : Pool B G}
    (success : releaseShares validator s = .ok r) :
    s.books.Releasable validator ∧ r = s.withBooks (s.books.release validator) := by
  unfold releaseShares at success
  by_cases pending : s.lastRebalance ≤ validator.start
  · simp only [if_pos pending, bind_eq_ok, sub_eq_ok, mul_eq_ok] at success
    obtain ⟨_, ⟨balance, rfl⟩, _, ⟨_, rfl⟩, _, ⟨inside, rfl⟩, _, ⟨_, rfl⟩, _, ⟨allocated, rfl⟩, _,
      ⟨shares, rfl⟩, same⟩ := success
    have claimed : validator.claimable s.lastRebalance = validator.smooths := if_pos pending
    refine ⟨⟨fun _ => ⟨balance, inside, allocated⟩, fun settled => absurd pending settled, ?_⟩, ?_⟩
    · exact claimed.trans_le shares
    · rw [Books.release_pending (b := s.books) pending, books_lastRebalance, claimed]
      exact (Except.ok.inj same).symm
  · simp only [if_neg pending, bind_eq_ok, sub_eq_ok] at success
    obtain ⟨_, ⟨balance, rfl⟩, share, counted, _, ⟨shares, rfl⟩, same⟩ := success
    obtain rfl := getShares_ok pending counted
    refine ⟨⟨fun early => absurd early pending, fun _ => balance, shares⟩, ?_⟩
    rw [Books.release_settled (b := s.books) pending]
    exact (Except.ok.inj same).symm

/-- The pool pays out: the lock is taken, ETH is sent from a prepared pool, and the lock is released. -/
def PaysOut (callback : Callback B G) (recipient : Address) (amount : ℕ) (s prepared after : Pool B G) :
    Prop :=
  ∃ status paid, G.before s.status = some status ∧
    Paid callback recipient amount { prepared with status := status } paid ∧
    after = nonReentrantAfter paid

/-- A successful `_exit` releases the record, pays the bond, and deletes the record. -/
theorem internalExit_ok {callback : Callback B G} {key : Word} {recipient : Address} {s r : Pool B G}
    (success : internalExit callback key recipient s = .ok r) :
    s.books.Releasable (s.validators key) ∧ (s.validators key).bond ≤ s.totalBond ∧
    ∃ after, PaysOut callback recipient (s.validators key).bond s (s.release (s.validators key)) after ∧
      r = after.remove key := by
  simp only [internalExit, bind_eq_ok, nonReentrantBefore_eq_ok, sendEther_eq_ok, sub_eq_ok] at success
  obtain ⟨_, ⟨status, opened, rfl⟩, released, subtracted, _, ⟨covered, rfl⟩, paid, sent, same⟩ := success
  obtain ⟨releasable, rfl⟩ := releaseShares_ok subtracted
  exact ⟨releasable, covered, nonReentrantAfter paid, ⟨status, paid, opened, sent, rfl⟩,
    (Except.ok.inj same).symm⟩

/-- A successful `_withdraw` claims at most `smooths` and pays at most the rewards. -/
theorem internalWithdraw_ok {callback : Callback B G} {validator : Validator} {s r : Pool B G} {eth : ℕ}
    (success : internalWithdraw callback validator s = .ok (eth, r)) :
    validator.claimable s.lastRebalance ≤ s.smooths ∧ s.totalBond ≤ s.balance ∧
    eth = validator.claimable s.lastRebalance * BPS / s.smooths * (s.balance - s.totalBond) / BPS ∧
    PaysOut callback validator.withdrawal eth s (s.consume (validator.claimable s.lastRebalance)) r := by
  simp only [internalWithdraw, bind_eq_ok, nonReentrantBefore_eq_ok, sendEther_eq_ok, require_eq_ok,
    sub_eq_ok, mul_eq_ok, div_eq_ok, totalETH_eq_ok] at success
  obtain ⟨_, ⟨status, opened, rfl⟩, _, enabled, share, shared, _, ⟨_, rfl⟩, _, ⟨_, rfl⟩, _,
    ⟨solvent, rfl⟩, _, ⟨_, rfl⟩, _, ⟨_, rfl⟩, _, ⟨enough, rfl⟩, paid, sent, same⟩ := success
  obtain ⟨rfl, rfl⟩ := Prod.mk.inj (Except.ok.inj same)
  obtain rfl : share = validator.claimable s.lastRebalance := claimedShare_ok shared
  exact ⟨enough, solvent, rfl, status, paid, opened, sent, rfl⟩

end Pool

end SmoothlyPool
