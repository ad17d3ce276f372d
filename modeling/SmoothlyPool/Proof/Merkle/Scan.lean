import Mathlib.Data.Set.Card
import SmoothlyPool.Proof.Merkle.Multiproof
import SmoothlyPool.Proof.Strings

namespace SmoothlyPool.Merkle

open Bytes32 Checked Arrays GIndex

variable {B : Type}

/-- The proper ancestors of the keys, up to the root. -/
def properAncestors (keys : List ℕ) : Set ℕ := {a | 1 ≤ a ∧ Interior keys a}

theorem properAncestors_finite (keys : List ℕ) : (properAncestors keys).Finite := by
  apply (Set.finite_Iic keys.sum).subset
  rintro a ⟨_, k, listed, above, _⟩
  exact above.le.trans (List.le_sum_of_mem listed)

namespace Scan

/-- The array holds the first keys and the appended ones.
The appended keys are proper ancestors, and exactly these keys have been set since the start. -/
structure Grown (start scan : Scan B) (appended : List ℕ) : Prop where
  keys : scan.keys = start.keys ++ appended
  distinct : appended.Nodup
  fresh : ∀ key ∈ appended, start.map.flag key = false
  ancestor : ∀ key ∈ appended, key ∈ properAncestors start.keys
  flags : ∀ key, scan.map.flag key = true ↔ start.map.flag key = true ∨ key ∈ appended

theorem Grown.refl (start : Scan B) : Grown start start [] where
  keys := (List.append_nil _).symm
  distinct := List.nodup_nil
  fresh _ absent := absurd absent List.not_mem_nil
  ancestor _ absent := absurd absent List.not_mem_nil
  flags _ := by simp

/-- The parent of a key that is hashed is a proper ancestor of a first key, and it is new. -/
theorem Grown.parent {start scan : Scan B} {appended : List ℕ} (grown : Grown start scan appended) {k : ℕ}
    (listed : k ∈ scan.keys) (can : canHash scan.map k = true) : k / 2 ∈ properAncestors start.keys := by
  have large := two_le_of_canHash can
  have positive : 1 ≤ k / 2 := by omega
  rw [grown.keys, List.mem_append] at listed
  rcases listed with first | later
  · exact ⟨positive, k, first, (Above.refl k).parent, by omega⟩
  · obtain ⟨_, first, member, above, proper⟩ := grown.ancestor k later
    have bound := above.le
    exact ⟨positive, first, member, above.parent, by omega⟩

/-- Distinct ancestors are counted once each. -/
theorem Grown.count {start scan : Scan B} {appended : List ℕ} (grown : Grown start scan appended) :
    scan.keys.length ≤ start.keys.length + (properAncestors start.keys).ncard := by
  have inside : (appended.toFinset : Set ℕ) ⊆ properAncestors start.keys := by
    intro key member
    exact grown.ancestor key (by simpa using member)
  have counted := Set.ncard_le_ncard inside (properAncestors_finite start.keys)
  rw [Set.ncard_coe_finset, List.toFinset_card_of_nodup grown.distinct] at counted
  rw [grown.keys, List.length_append]
  omega

variable [Bytes32 B]

theorem Grown.step {start scan after : Scan B} {appended : List ℕ} (grown : Grown start scan appended)
    (pass : scan.next = some after) : ∃ more, Grown start after more := by
  obtain ⟨k, listed, ⟨can, rfl⟩ | ⟨_, rfl⟩⟩ := next_cases pass
  · obtain ⟨_, _, unset⟩ := canHash_iff.mp can
    have new : start.map.flag (k / 2) = false ∧ k / 2 ∉ appended := by
      rw [← Bool.not_eq_true, grown.flags, not_or, Bool.not_eq_true] at unset
      exact unset
    refine ⟨appended ++ [k / 2], ?_, ?_, ?_, ?_, ?_⟩
    · simp [push, grown.keys]
    · rw [List.nodup_append_comm, List.singleton_append, List.nodup_cons]
      exact ⟨new.2, grown.distinct⟩
    · simp only [List.forall_mem_append, List.forall_mem_singleton]
      exact ⟨grown.fresh, new.1⟩
    · simp only [List.forall_mem_append, List.forall_mem_singleton]
      exact ⟨grown.ancestor, grown.parent listed can⟩
    · intro key
      rw [hashPair_flag, List.mem_append, List.mem_singleton, ← or_assoc, ← grown.flags]
      by_cases same : key = k / 2
      · simp [same]
      · simp [same]
  · exact ⟨appended, grown.keys, grown.distinct, grown.fresh, grown.ancestor, grown.flags⟩

/-- What one pass keeps holds of every reached state. -/
theorem reaches_grown {start scan : Scan B} (reaches : Reaches start scan) :
    ∃ appended, Grown start scan appended := by
  induction reaches with
  | refl => exact ⟨[], Grown.refl start⟩
  | tail _ pass ih =>
      obtain ⟨appended, grown⟩ := ih
      exact grown.step pass

end Scan

variable [Bytes32 B]

/-- The loop of the multiproof starts with the helper indices and the indices, all of them set. -/
def firstScan (helpers : List ℕ) (proof : List B) (indices : List ℕ) (leaves : List B) (map : HashMap B) : Scan B :=
  ⟨startKeys helpers indices, 0, supply helpers proof indices leaves map⟩

/-- The while loop ends for every input and every initial map.
Each pass appends at most one key, which was not set and is a proper ancestor of a helper or listed index,
so there are at most as many appended keys as such ancestors. -/
theorem while_loop_ends (proof leaves : List B) (indices : List ℕ) (map : HashMap B) :
    ∃ helpers, getHelperIndices indices = .ok helpers ∧
      (∃ final, Scan.Reaches (firstScan helpers proof indices leaves map) final ∧ final.next = none ∧
        hashKeys (keyBudget (startKeys helpers indices)) (startKeys helpers indices)
          (supply helpers proof indices leaves map) = .ok final.map) ∧
      ∀ scan, Scan.Reaches (firstScan helpers proof indices leaves map) scan →
        (∀ after, scan.next = some after → after.keys = scan.keys ∨
          ∃ key ∈ properAncestors (helpers ++ indices), after.keys = scan.keys ++ [key] ∧
            scan.map.contains key = false) ∧
        scan.keys.length ≤ (helpers ++ indices).length + (properAncestors (helpers ++ indices)).ncard := by
  obtain ⟨helpers, built, _⟩ := getHelperIndices_ok indices
  have ancestors : properAncestors (startKeys helpers indices) = properAncestors (helpers ++ indices) := by
    ext key
    simp only [properAncestors, Interior, mem_startKeys, List.mem_append]
  have count : (startKeys helpers indices).length = (helpers ++ indices).length :=
    (sortReverse_perm _).length_eq
  refine ⟨helpers, built, Scan.ends _ (firstScan helpers proof indices leaves map) le_rfl, ?_⟩
  intro scan reaches
  obtain ⟨appended, grown⟩ := Scan.reaches_grown reaches
  constructor
  · intro after pass
    obtain ⟨k, listed, ⟨can, rfl⟩ | ⟨_, rfl⟩⟩ := Scan.next_cases pass
    · refine .inr ⟨k / 2, ?_, rfl, (canHash_iff.mp can).2.2⟩
      rw [← ancestors]
      exact grown.parent listed can
    · exact .inl rfl
  · rw [← ancestors, ← count]
    exact grown.count

/-- The keys 0 and 1 and a repeated key take part in the loop. -/
theorem while_loop_ends_small :
    ∃ helpers, getHelperIndices [0, 1, 2, 2] = .ok helpers ∧
      (∃ final, Scan.Reaches (firstScan helpers [Term.word 3] [0, 1, 2, 2] [.word 0, .word 1, .word 2, .word 2] .empty)
        final ∧ final.next = none) ∧
      (startKeys helpers [0, 1, 2, 2]).length ≤
        (helpers ++ [0, 1, 2, 2]).length + (properAncestors (helpers ++ [0, 1, 2, 2])).ncard := by
  obtain ⟨helpers, built, ⟨final, reaches, halts, _⟩, bounds⟩ :=
    while_loop_ends [Term.word 3] [.word 0, .word 1, .word 2, .word 2] [0, 1, 2, 2] .empty
  exact ⟨helpers, built, ⟨final, reaches, halts⟩, (bounds _ .refl).2⟩

end SmoothlyPool.Merkle
