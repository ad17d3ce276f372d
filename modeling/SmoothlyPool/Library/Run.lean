import Mathlib.Tactic.Common

namespace Transition

/-- A move leads from one state to another under a label. -/
structure Move (σ α : Type) where
  before : σ
  label : α
  after : σ

variable {σ α : Type}

/-- Each move of a run starts where the previous move ended.  The trace keeps the newest move first. -/
inductive Run (initial : σ → Prop) (step : Move σ α → Prop) : List (Move σ α) → σ → Prop
  | start {state : σ} (starts : initial state) : Run initial step [] state
  | next {trace : List (Move σ α)} (move : Move σ α) (run : Run initial step trace move.before)
      (steps : step move) : Run initial step (move :: trace) move.after

variable {initial : σ → Prop} {step : Move σ α → Prop} {trace : List (Move σ α)} {state : σ}

/-- An invariant of every move holds at the end of every run. -/
theorem Run.invariant (holds : σ → Prop) (starts : ∀ state, initial state → holds state)
    (keeps : ∀ move, step move → holds move.before → holds move.after)
    (run : Run initial step trace state) : holds state := by
  induction run with
  | start first => exact starts _ first
  | next move _ steps earlier => exact keeps move steps earlier

/-- A run under a stronger step relation is a run under the weaker one. -/
theorem Run.weaken {weaker : Move σ α → Prop} (weakens : ∀ move, step move → weaker move)
    (run : Run initial step trace state) : Run initial weaker trace state := by
  induction run with
  | start first => exact .start first
  | next move _ steps earlier => exact .next move earlier (weakens move steps)

/-- Each move of a run steps from the state at the end of the moves before it. -/
theorem Run.split {newer older : List (Move σ α)} {move : Move σ α}
    (run : Run initial step (newer ++ move :: older) state) :
    step move ∧ Run initial step older move.before := by
  induction newer generalizing state with
  | nil =>
      cases run with
      | next _ rest steps => exact ⟨steps, rest⟩
  | cons newest rest ih =>
      cases run with
      | next _ earlier _ => exact ih earlier

theorem Run.steps (run : Run initial step trace state) {move : Move σ α} (member : move ∈ trace) : step move := by
  obtain ⟨newer, older, rfl⟩ := List.append_of_mem member
  exact run.split.1

/-- What holds after one move of a run holds at its end when every later move keeps it. -/
theorem Run.since (holds : σ → Prop) {newer older : List (Move σ α)} {move : Move σ α}
    (keeps : ∀ later, step later → holds later.before → holds later.after) (first : holds move.after)
    (run : Run initial step (newer ++ move :: older) state) : holds state := by
  induction newer generalizing state with
  | nil =>
      cases run with
      | next _ _ _ => exact first
  | cons newest rest ih =>
      cases run with
      | next _ earlier steps => exact keeps newest steps (ih earlier)

end Transition
