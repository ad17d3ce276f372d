import SmoothlyPool.Library.Checked

namespace IndexLoop

open Checked

variable {ε σ α : Type}

/-- The body runs for `count` indices from `i` on. -/
def run (body : ℕ → σ → Except ε σ) : ℕ → ℕ → σ → Except ε σ
  | 0, _, state => .ok state
  | count + 1, i, state => do run body count (i + 1) (← body i state)

/-- A loop succeeds when each index takes the invariant to the next index. -/
theorem run_invariant {body : ℕ → σ → Except ε σ} (holds : ℕ → σ → Prop) {count i : ℕ} {state : σ}
    (keeps : ∀ j state, i ≤ j → j < i + count → holds j state → ∃ next, body j state = .ok next ∧ holds (j + 1) next)
    (starts : holds i state) : ∃ result, run body count i state = .ok result ∧ holds (i + count) result := by
  induction count generalizing i state with
  | zero => exact ⟨state, rfl, starts⟩
  | succ count ih =>
      obtain ⟨next, steps, held⟩ := keeps i state le_rfl (by omega) starts
      obtain ⟨result, runs, final⟩ := ih (fun j state low high => keeps j state (by omega) (by omega)) held
      refine ⟨result, ?_, ?_⟩
      · rw [run, steps, ok_bind, runs]
      · rwa [Nat.add_right_comm] at final

/-- A loop over all indices of a list is a fold over its items. -/
theorem run_foldlM {body : ℕ → σ → Except ε σ} {items : List α} (step : σ → α → Except ε σ)
    (reads : ∀ i (inside : i < items.length) state, body i state = step state items[i]) (state : σ) :
    run body items.length 0 state = items.foldlM step state := by
  suffices ∀ (front rest : List α) (state : σ), front ++ rest = items →
      run body rest.length front.length state = rest.foldlM step state from this [] items state rfl
  intro front rest
  induction rest generalizing front with
  | nil => exact fun _ _ => rfl
  | cons item rest ih =>
      rintro state rfl
      have here : body front.length state = step state item := by
        rw [reads _ (by simp)]
        simp
      rw [List.length_cons, run, here, List.foldlM_cons]
      apply bind_congr_ok
      intro next _
      have later := ih (front ++ [item]) next (by simp)
      rwa [List.length_append, List.length_singleton] at later

end IndexLoop
