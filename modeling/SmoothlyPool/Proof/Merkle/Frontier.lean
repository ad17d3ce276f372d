import SmoothlyPool.Proof.Merkle.Sort
import SmoothlyPool.Proof.Merkle.Multiproof

namespace SmoothlyPool.Merkle

open Checked Arrays GIndex

/-- No index lies above another one. -/
def PrefixFree (indices : List ℕ) : Prop := ∀ a ∈ indices, ∀ b ∈ indices, Above a b → a = b

instance : DecidablePred PrefixFree := fun _ => inferInstanceAs (Decidable (∀ _ ∈ _, ∀ _ ∈ _, _ → _))

/-- The difference drops repeated items, and the sort puts the largest one first. -/
theorem getHelperIndices_descending {indices helpers : List ℕ}
    (built : getHelperIndices indices = .ok helpers) : helpers.Pairwise (· > ·) := by
  simp only [getHelperIndices, bind_eq_ok] at built
  obtain ⟨⟨allHelperIndices, allPathIndices⟩, _, same⟩ := built
  rw [← Except.ok.inj same]
  exact sortReverse_strict (difference_nodup allHelperIndices allPathIndices)

theorem getHelperIndices_nodup {indices helpers : List ℕ}
    (built : getHelperIndices indices = .ok helpers) : helpers.Nodup :=
  (getHelperIndices_descending built).imp fun above => above.ne'

/-- Two children of one parent are siblings. -/
theorem sibling_of_parent {c d : ℕ} (same : d / 2 = c / 2) (other : d ≠ c) : c ^^^ 1 = d := by
  rw [sibling_eq]
  omega

section Cover

variable {helpers indices : List ℕ}

/-- The supplied nodes do not lie above one another. -/
theorem PrefixFree.cover (free : PrefixFree indices) (completes : Completes helpers indices) :
    PrefixFree (indices ++ helpers) := by
  intro a first b second above
  by_contra different
  rw [List.mem_append] at first second
  have higher : Above a (b / 2) := (above_iff_parent.mp above).resolve_left different
  rcases second with listed | helper
  · rcases first with upper | upper
    · exact different (free a upper b listed above)
    · exact ((completes a).mp upper).2.2 ⟨b, listed, above⟩
  · obtain ⟨large, ⟨index, listed, below⟩, _⟩ := (completes b).mp helper
    have parent : Above (b / 2) index := by
      rw [← sibling_div_two]
      exact below.parent
    have reaches := higher.trans parent
    rcases first with upper | upper
    · have same := free a upper index listed reaches
      have deep := below.le
      have low := higher.le
      have half := sibling_div_two b
      have lower := two_le_sibling.mpr large
      omega
    · exact ((completes a).mp upper).2.2 ⟨index, listed, reaches⟩

/-- The walk from a deep node to the root meets a supplied node where it enters the paths. -/
theorem covered (completes : Completes helpers indices) {g : ℕ}
    (deep : ∀ k ∈ indices, k < g) (height : ℕ) (present : 1 ≤ g / 2 ^ height)
    (onPath : OnPath indices (g / 2 ^ height)) : ∃ k ∈ indices ++ helpers, Above k g := by
  induction height with
  | zero =>
      obtain ⟨index, listed, above⟩ := onPath
      have low := above.le
      have high := deep index listed
      rw [pow_zero, Nat.div_one] at low
      omega
  | succ height ih =>
      have up : g / 2 ^ (height + 1) = g / 2 ^ height / 2 := by rw [pow_succ, Nat.div_div_eq_div_mul]
      rw [up] at present onPath
      by_cases below : OnPath indices (g / 2 ^ height)
      · exact ih (by omega) below
      · by_cases listed : g / 2 ^ height / 2 ∈ indices
        · exact ⟨_, List.mem_append_left _ listed, height + 1, up⟩
        · obtain ⟨child, parent, entered⟩ := (onPath.interior listed).child
          have other : child ≠ g / 2 ^ height := fun same => below (same ▸ entered)
          have helper : g / 2 ^ height ∈ helpers := by
            rw [completes, sibling_of_parent parent other]
            exact ⟨by omega, entered, below⟩
          exact ⟨_, List.mem_append_right _ helper, height, rfl⟩

end Cover

/-- The helper indices descend strictly, and they are the siblings of the paths that lie on no path.
With distinct indices that do not lie above one another, every node that is deeper than all supplied
nodes lies below exactly one of them. -/
theorem getHelperIndices_frontier (indices : List ℕ) (positive : ∀ index ∈ indices, 1 ≤ index) :
    ∃ helpers, getHelperIndices indices = .ok helpers ∧
      helpers.Pairwise (· > ·) ∧
      (∀ h, h ∈ helpers ↔
        (∃ k, 2 ≤ k ∧ OnPath indices k ∧ generalizedIndexSibling k = h) ∧ ¬ OnPath indices h) ∧
      (indices ≠ [] → indices.Nodup → PrefixFree indices →
        (indices ++ helpers).Nodup ∧ PrefixFree (indices ++ helpers) ∧
        ∀ g, (∀ k ∈ indices ++ helpers, k.log2 < g.log2) → ∃! k, k ∈ indices ++ helpers ∧ Above k g) := by
  obtain ⟨helpers, built, completes⟩ := getHelperIndices_ok indices
  refine ⟨helpers, built, getHelperIndices_descending built, ?_, ?_⟩
  · intro h
    rw [completes]
    constructor
    · rintro ⟨large, onPath, off⟩
      exact ⟨⟨h ^^^ 1, two_le_sibling.mpr large, onPath, sibling_sibling h⟩, off⟩
    · rintro ⟨⟨k, large, onPath, rfl⟩, off⟩
      refine ⟨two_le_sibling.mpr large, ?_, off⟩
      rwa [generalizedIndexSibling, sibling_sibling]
  · intro nonempty distinct free
    have cover := free.cover completes
    refine ⟨?_, cover, ?_⟩
    · rw [List.nodup_append]
      refine ⟨distinct, getHelperIndices_nodup built, ?_⟩
      rintro a listed b helper rfl
      exact ((completes a).mp helper).2.2 ⟨a, listed, .refl a⟩
    · intro g deeper
      have deep : ∀ k ∈ indices, k < g := by
        intro k listed
        have less := deeper k (List.mem_append_left _ listed)
        have low : k < 2 ^ g.log2 := (Nat.log2_lt (Nat.ne_of_gt (positive k listed))).mp less
        have present : g ≠ 0 := by
          rintro rfl
          exact absurd less (Nat.not_lt_zero _)
        exact low.trans_le (Nat.log2_self_le present)
      obtain ⟨index, listed⟩ := List.exists_mem_of_ne_nil indices nonempty
      obtain ⟨height, top⟩ := root_above (k := g) (by have := deep index listed; omega)
      have root : OnPath indices (g / 2 ^ height) := by
        rw [top]
        exact ⟨index, listed, root_above (positive index listed)⟩
      obtain ⟨k, supplied, above⟩ := covered completes deep height top.ge root
      refine ⟨k, ⟨supplied, above⟩, ?_⟩
      rintro other ⟨also, higher⟩
      rcases higher.total above with upper | upper
      · exact cover other also k supplied upper
      · exact (cover k supplied other also upper).symm

/-- The indices 4, 10 and 6 need the helpers 11 and 7, and the five nodes cover the level of 16. -/
theorem three_indices_covered :
    getHelperIndices [4, 10, 6] = .ok [11, 7] ∧ ∃! k, k ∈ [4, 10, 6] ++ [11, 7] ∧ Above k 23 := by
  obtain ⟨helpers, built, _, _, cover⟩ := getHelperIndices_frontier [4, 10, 6] (by decide)
  have computed : getHelperIndices [4, 10, 6] = .ok [11, 7] := by decide
  obtain rfl : helpers = [11, 7] := Except.ok.inj (built.symm.trans computed)
  obtain ⟨_, _, below⟩ := cover (by decide) (by decide) (by decide)
  exact ⟨computed, below 23 (by decide)⟩

end SmoothlyPool.Merkle
