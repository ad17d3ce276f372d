import Mathlib.Algebra.BigOperators.Ring.Finset
import Mathlib.Algebra.Order.BigOperators.Group.Finset
import Mathlib.Tactic

namespace Ledger

variable {K V : Type} [Fintype K] (live : V → Prop) [DecidablePred live]

/-- These are the keys of the live records. -/
def keys (ledger : K → V) : Finset K := Finset.univ.filter fun key => live (ledger key)

/-- The total adds one amount for each live record. -/
def total (amount : V → ℕ) (ledger : K → V) : ℕ := ∑ key ∈ keys live ledger, amount (ledger key)

variable {live}

@[simp] theorem mem_keys {ledger : K → V} {key : K} :
    key ∈ keys live ledger ↔ live (ledger key) := by simp [keys]

theorem total_eq_sum (amount : V → ℕ) (ledger : K → V) :
    total live amount ledger = ∑ key, if live (ledger key) then amount (ledger key) else 0 :=
  Finset.sum_filter _ _

/-- A write exchanges the old amount for the new amount. -/
theorem total_update [DecidableEq K] (live : V → Prop) [DecidablePred live] (amount : V → ℕ)
    (ledger : K → V) (key : K) (record : V) :
    total live amount (Function.update ledger key record) +
        (if live (ledger key) then amount (ledger key) else 0) =
      total live amount ledger + (if live record then amount record else 0) := by
  simp only [total_eq_sum]
  rw [← Finset.add_sum_erase Finset.univ _ (Finset.mem_univ key),
    ← Finset.add_sum_erase Finset.univ (fun k => if live (ledger k) then amount (ledger k) else 0)
      (Finset.mem_univ key)]
  have others : ∑ k ∈ Finset.univ.erase key,
        (if live (Function.update ledger key record k) then
          amount (Function.update ledger key record k) else 0) =
      ∑ k ∈ Finset.univ.erase key, if live (ledger k) then amount (ledger k) else 0 := by
    apply Finset.sum_congr rfl
    intro k member
    rw [Function.update_of_ne (Finset.ne_of_mem_erase member)]
  rw [others, Function.update_self]
  omega

/-- A rewritten live record exchanges its amount. -/
theorem total_rewrite [DecidableEq K] (amount : V → ℕ) (ledger : K → V) (key : K) (record : V)
    (alive : live (ledger key)) (still : live record) :
    total live amount (Function.update ledger key record) + amount (ledger key) =
      total live amount ledger + amount record := by
  have exchange := total_update live amount ledger key record
  rwa [if_pos alive, if_pos still] at exchange

/-- One live amount is at most the total. -/
theorem le_total (amount : V → ℕ) {ledger : K → V} {key : K} (alive : live (ledger key)) :
    amount (ledger key) ≤ total live amount ledger :=
  Finset.single_le_sum (f := fun k => amount (ledger k)) (fun _ _ => Nat.zero_le _)
    (mem_keys.mpr alive)

/-- Equal amounts on the live records give equal totals. -/
theorem total_congr {first second : V → ℕ} {ledger : K → V}
    (same : ∀ key, live (ledger key) → first (ledger key) = second (ledger key)) :
    total live first ledger = total live second ledger :=
  Finset.sum_congr rfl fun key member => same key (mem_keys.mp member)

theorem total_add (first second : V → ℕ) (ledger : K → V) :
    total live (fun record => first record + second record) ledger =
      total live first ledger + total live second ledger := Finset.sum_add_distrib

theorem total_mul_left (factor : ℕ) (amount : V → ℕ) (ledger : K → V) :
    total live (fun record => factor * amount record) ledger = factor * total live amount ledger :=
  (Finset.mul_sum _ _ _).symm

/-- A common bound on the amounts bounds the total. -/
theorem total_le (amount : V → ℕ) (ledger : K → V) (bound : ℕ)
    (each : ∀ key, live (ledger key) → amount (ledger key) ≤ bound) :
    total live amount ledger ≤ (keys live ledger).card * bound := by
  rw [← smul_eq_mul]
  exact Finset.sum_le_card_nsmul _ _ _ fun key member => each key (mem_keys.mp member)

/-- A ledger without live records has total zero. -/
theorem total_eq_zero (amount : V → ℕ) (ledger : K → V) (dead : ∀ key, ¬ live (ledger key)) :
    total live amount ledger = 0 := by
  rw [total, show keys live ledger = ∅ from Finset.filter_eq_empty_iff.mpr fun key _ => dead key]
  rfl

end Ledger
