import SmoothlyPool.Construction.OffChain
import SmoothlyPool.Construction.Pool
import SmoothlyPool.Proof.Merkle.SingleIndex

namespace SmoothlyPool.OffChain

open GIndex
open Merkle (OnPath)

section Filter

variable {items : List ℤ}

@[simp] theorem mem_filterFirst {x : ℤ} : x ∈ filterFirst items ↔ x ∈ items := by
  rw [filterFirst, List.mem_map]
  constructor
  · rintro ⟨⟨item, place⟩, member, rfl⟩
    exact List.fst_mem_of_mem_zipIdx (List.mem_filter.mp member).1
  · intro member
    refine ⟨(x, items.idxOf x), ?_, rfl⟩
    rw [List.mem_filter, List.mk_mem_zipIdx_iff_getElem?]
    exact ⟨List.getElem?_idxOf member, by simp⟩

/-- Two kept copies of one item have the same place. -/
theorem filterFirst_nodup : (filterFirst items).Nodup := by
  have places : items.zipIdx.Nodup := by
    apply List.Nodup.of_map Prod.snd
    rw [List.zipIdx_map_snd]
    exact List.nodup_range'
  apply (places.filter _).map_on
  intro first kept second also same
  simp only [List.mem_filter, beq_iff_eq] at kept also
  apply Prod.ext same
  rw [← kept.2, ← also.2, same]

end Filter

/-- The sort and the reversal put the largest item first. -/
theorem getHelperIndices_descending (indices : List ℤ) : (getHelperIndices indices).Pairwise (· > ·) := by
  rw [getHelperIndices]
  generalize collectIndices indices [] [] = collected
  obtain ⟨allHelperIndices, allPathIndices⟩ := collected
  dsimp only
  generalize kept : (filterFirst allHelperIndices).filter (fun x => !allPathIndices.contains x) = helpers
  have distinct : helpers.Nodup := by
    rw [← kept]
    exact filterFirst_nodup.filter _
  rw [List.pairwise_reverse]
  have sorted := @List.pairwise_mergeSort ℤ (fun a b => decide (a - b ≤ 0))
    (fun a b c => by simp only [decide_eq_true_eq]; omega)
    (fun a b => by simp only [Bool.or_eq_true, decide_eq_true_eq]; omega) helpers
  have nodup : (helpers.mergeSort fun a b => a - b ≤ 0).Nodup :=
    (List.mergeSort_perm helpers _).nodup_iff.mpr distinct
  apply sorted.imp₂ _ nodup
  intro a b ordered differs
  simp only [decide_eq_true_eq] at ordered
  omega

section Truncation

/-- The operator `^` sees this number of an index, where a negative number counts as zero. -/
def truncated (index : ℕ) : ℕ := (BitVec.ofNat 32 index).toInt.toNat

theorem truncated_eq (index : ℕ) : truncated index = if index % 2 ^ 32 < 2 ^ 31 then index % 2 ^ 32 else 0 := by
  rw [truncated, BitVec.toInt_eq_toNat_cond, BitVec.toNat_ofNat]
  split_ifs <;> omega

theorem truncated_of_small {index : ℕ} (small : index < 2 ^ 31) : truncated index = index := by
  rw [truncated_eq, Nat.mod_eq_of_lt (by omega), if_pos small]

theorem truncated_lt (index : ℕ) : truncated index < 2 ^ 31 := by
  rw [truncated_eq]
  split_ifs <;> omega

theorem truncated_le (index : ℕ) : truncated index ≤ index := by
  rw [truncated_eq]
  split_ifs
  · exact Nat.mod_le _ _
  · exact Nat.zero_le _

theorem sibling_lt {index : ℕ} (small : index < 2 ^ 31) : index ^^^ 1 < 2 ^ 31 :=
  Nat.xor_lt_two_pow small (by decide)

/-- The sibling is the sibling of the truncated index, or it is negative. -/
theorem sibling_cases (index : ℕ) :
    generalizedIndexSibling index = ((truncated index ^^^ 1 : ℕ) : ℤ) ∨
      truncated index = 0 ∧ generalizedIndexSibling index < 0 := by
  have one : (BitVec.ofInt 32 1).toNat = 1 := rfl
  have half := sibling_div_two (index % 2 ^ 32)
  have narrow : index % 2 ^ 32 ^^^ 1 < 2 ^ 32 := Nat.xor_lt_two_pow (Nat.mod_lt _ (by decide)) (by decide)
  rw [generalizedIndexSibling, xor, BitVec.ofInt_natCast, BitVec.toInt_eq_toNat_cond, BitVec.toNat_xor,
    BitVec.toNat_ofNat, one, truncated_eq]
  by_cases low : index % 2 ^ 32 < 2 ^ 31
  · have small := sibling_lt low
    rw [if_pos low, if_pos (by omega)]
    exact .inl rfl
  · rw [if_neg low, if_neg (by omega)]
    exact .inr ⟨rfl, by omega⟩

end Truncation

/-- The same values as exact numbers. -/
def numbers (values : List ℕ) : List ℤ := values.map Nat.cast

theorem mem_numbers {values : List ℕ} {x : ℤ} : x ∈ numbers values ↔ ∃ k : ℕ, x = k ∧ k ∈ values := by
  simp only [numbers, List.mem_map]
  constructor
  · rintro ⟨k, listed, rfl⟩
    exact ⟨k, rfl, listed⟩
  · rintro ⟨k, rfl, listed⟩
    exact ⟨k, listed, rfl⟩

section Climb

theorem climb_stop {next : ℤ → ℤ} {fuel : ℕ} {o : List ℤ} (stops : ¬ 1 < o.getLastD 0) :
    climb next fuel o = o := by
  cases fuel with
  | zero => rfl
  | succ fuel => rw [climb, if_neg stops]

theorem getLastD_numbers (o : List ℕ) : (numbers o).getLastD 0 = (o.getLastD 0 : ℕ) := by
  simp only [numbers, List.getLastD_eq_getLast?, List.getLast?_map]
  cases o.getLast? <;> rfl

/-- Both climbs take the same steps while the items stay in the range `holds`. -/
theorem climb_numbers {next : ℤ → ℤ} {step : ℕ → ℕ} (holds : ℕ → Prop)
    (steps : ∀ k, holds k → next k = (step k : ℕ) ∧ holds (step k)) (fuel : ℕ) (o : List ℕ)
    (last : holds (o.getLastD 0)) : climb next fuel (numbers o) = numbers (Merkle.climb step fuel o) := by
  induction fuel generalizing o with
  | zero => rfl
  | succ fuel ih =>
      obtain ⟨same, stays⟩ := steps _ last
      have grown := ih (Arrays.push o (step (o.getLastD 0))) (by simpa [Arrays.push] using stays)
      have pushed :
          numbers o ++ [((step (o.getLastD 0) : ℕ) : ℤ)] = numbers (Arrays.push o (step (o.getLastD 0))) := by
        simp [numbers, Arrays.push]
      rw [climb, Merkle.climb, getLastD_numbers, same, pushed, grown]
      simp only [Nat.one_lt_cast]
      split_ifs <;> rfl

theorem dropLast_numbers (o : List ℕ) : (numbers o).dropLast = numbers o.dropLast := List.map_dropLast.symm

theorem mem_getPathIndices (index : ℕ) (x : ℤ) :
    x ∈ getPathIndices index ↔ ∃ k : ℕ, x = k ∧ 2 ≤ k ∧ Above k index := by
  have climbed := @climb_numbers generalizedIndexParent Merkle.generalizedIndexParent (fun _ => True)
    (fun _ _ => ⟨rfl, trivial⟩) index.log2 [index] trivial
  have first : [(index : ℤ)] = numbers [index] := rfl
  rw [getPathIndices, Int.toNat_natCast, first, climbed, dropLast_numbers, mem_numbers]
  simp only [Merkle.mem_path le_rfl]

/-- The branch follows the truncated index, and it is empty when the truncated index is negative. -/
theorem mem_getBranchIndices (index : ℕ) (x : ℤ) :
    x ∈ getBranchIndices index ↔ ∃ k : ℕ, x = k ∧ 2 ≤ k ∧ Above (k ^^^ 1) (truncated index) := by
  rw [getBranchIndices, Int.toNat_natCast]
  rcases sibling_cases index with same | ⟨zero, negative⟩
  · have steps (k : ℕ) (small : k < 2 ^ 31) :
        generalizedIndexSibling (generalizedIndexParent k) =
            (Merkle.generalizedIndexSibling (Merkle.generalizedIndexParent k) : ℕ) ∧
          Merkle.generalizedIndexSibling (Merkle.generalizedIndexParent k) < 2 ^ 31 := by
      have half : k / 2 < 2 ^ 31 := (Nat.div_le_self k 2).trans_lt small
      refine ⟨?_, sibling_lt half⟩
      have parent : generalizedIndexParent k = ((k / 2 : ℕ) : ℤ) := rfl
      have kept := sibling_cases (k / 2)
      rw [truncated_of_small half] at kept
      rw [parent]
      rcases kept with sibling | ⟨none, negative⟩
      · exact sibling
      · rw [none] at negative
        exact absurd negative (by decide)
    have climbed := @climb_numbers (fun last => generalizedIndexSibling (generalizedIndexParent last))
      (fun last => Merkle.generalizedIndexSibling (Merkle.generalizedIndexParent last)) (· < 2 ^ 31) steps
      index.log2 [Merkle.generalizedIndexSibling (truncated index)] (sibling_lt (truncated_lt index))
    have first : [generalizedIndexSibling index] = numbers [Merkle.generalizedIndexSibling (truncated index)] := by
      rw [same]
      rfl
    have enough : (truncated index).log2 ≤ index.log2 := by
      rw [Nat.log2_eq_log_two, Nat.log2_eq_log_two]
      exact Nat.log_mono_right (truncated_le index)
    rw [first, climbed, dropLast_numbers, mem_numbers]
    simp only [Merkle.mem_branch enough]
  · rw [climb_stop (by simpa using by omega), zero]
    simp only [List.dropLast_singleton, List.not_mem_nil, false_iff]
    rintro ⟨k, _, large, above⟩
    have bound := above.le
    have sibling := two_le_sibling.mpr large
    omega

end Climb

/-- The nodes above the truncated indices give the helpers, and the nodes above the indices are left out. -/
theorem mem_collectIndices (indices : List ℕ) (helpers paths : List ℤ) (x : ℤ) :
    (x ∈ (collectIndices (numbers indices) helpers paths).1 ↔
      x ∈ helpers ∨ ∃ k : ℕ, x = k ∧ 2 ≤ k ∧ OnPath (indices.map truncated) (k ^^^ 1)) ∧
    (x ∈ (collectIndices (numbers indices) helpers paths).2 ↔
      x ∈ paths ∨ ∃ k : ℕ, x = k ∧ 2 ≤ k ∧ OnPath indices k) := by
  induction indices generalizing helpers paths with
  | nil => simp [numbers, collectIndices, OnPath]
  | cons index rest ih =>
      have next := ih (helpers ++ getBranchIndices index) (paths ++ getPathIndices index)
      simp only [List.mem_append, mem_getBranchIndices, mem_getPathIndices] at next
      have unfolds : collectIndices (numbers (index :: rest)) helpers paths =
        collectIndices (numbers rest) (helpers ++ getBranchIndices index) (paths ++ getPathIndices index) := rfl
      rw [unfolds, next.1, next.2, or_assoc, or_assoc, ← exists_or, ← exists_or]
      constructor
      · simp only [← and_or_left, OnPath, List.map_cons, List.exists_mem_cons_iff]
      · simp only [← and_or_left, OnPath, List.exists_mem_cons_iff]

theorem mem_getHelperIndices (indices : List ℕ) (x : ℤ) :
    x ∈ getHelperIndices (numbers indices) ↔
      ∃ k : ℕ, x = k ∧ 2 ≤ k ∧ OnPath (indices.map truncated) (k ^^^ 1) ∧ ¬ OnPath indices k := by
  have collected := mem_collectIndices indices [] [] x
  simp only [List.not_mem_nil, false_or] at collected
  simp only [getHelperIndices, List.mem_reverse, List.mem_mergeSort, List.mem_filter, mem_filterFirst, collected.1,
    Bool.not_eq_true', List.contains_eq_mem, decide_eq_false_iff_not, collected.2]
  constructor
  · rintro ⟨⟨k, rfl, large, exposed⟩, off⟩
    exact ⟨k, rfl, large, exposed, fun onPath => off ⟨k, rfl, large, onPath⟩⟩
  · rintro ⟨k, rfl, large, exposed, off⟩
    refine ⟨⟨k, rfl, large, exposed⟩, ?_⟩
    rintro ⟨j, same, _, onPath⟩
    obtain rfl : k = j := by exact_mod_cast same
    exact off onPath

/-- Both functions return the same list. -/
def Agrees (indices : List ℕ) : Prop :=
  (Merkle.getHelperIndices indices).map numbers = .ok (getHelperIndices (numbers indices))

/-- Both lists descend, so they are equal when they have the same items. -/
theorem agrees_iff (indices : List ℕ) : Agrees indices ↔
    ∀ k, 2 ≤ k → ¬ OnPath indices k → (OnPath indices (k ^^^ 1) ↔ OnPath (indices.map truncated) (k ^^^ 1)) := by
  obtain ⟨helpers, built, completes⟩ := Merkle.getHelperIndices_ok indices
  have descending : (numbers helpers).Pairwise (· > ·) := by
    rw [numbers, List.pairwise_map]
    exact (Merkle.getHelperIndices_descending built).imp fun above => by exact_mod_cast above
  have lists : Agrees indices ↔ numbers helpers = getHelperIndices (numbers indices) := by
    rw [Agrees, built]
    exact ⟨Except.ok.inj, congrArg Except.ok⟩
  rw [lists]
  constructor
  · intro same k large off
    have item : (k : ℤ) ∈ numbers helpers ↔ (k : ℤ) ∈ getHelperIndices (numbers indices) := by rw [same]
    simp only [mem_numbers, mem_getHelperIndices, Nat.cast_inj, completes] at item
    simpa [large, off] using item
  · intro exposed
    apply descending.eq_of_mem_iff (getHelperIndices_descending _)
    intro x
    rw [mem_numbers, mem_getHelperIndices]
    apply exists_congr
    intro k
    rw [completes]
    apply and_congr_right'
    apply and_congr_right
    intro large
    apply and_congr_left
    exact exposed k large

/-- For a single index the limit is the sign bit. -/
theorem agrees_singleton {index : ℕ} : Agrees [index] ↔ index < 2 ^ 31 := by
  rw [agrees_iff]
  simp only [List.map_singleton, Merkle.onPath_singleton]
  constructor
  · intro exposed
    by_contra large
    have two : 2 ≤ index := by omega
    have same := exposed (index ^^^ 1) (two_le_sibling.mpr two) (Above.sibling (.refl index) two)
    rw [sibling_sibling] at same
    have below := (same.mp (.refl index)).le
    have bound := truncated_lt index
    omega
  · intro small k _ _
    rw [truncated_of_small small]

/-- The truncation of the index hides no helper and brings no new one:
the truncated index hangs on the paths, and each node above the index has its sibling on a path or lies
above a truncated index. -/
def Masked (indices : List ℕ) (index : ℕ) : Prop :=
  (2 ≤ truncated index → OnPath indices (truncated index) ∨ OnPath indices (truncated index ^^^ 1)) ∧
  ∀ node, 2 ≤ node → Above node index → OnPath indices (node ^^^ 1) ∨ OnPath (indices.map truncated) node

theorem onPath_truncated {indices : List ℕ} {k : ℕ} :
    OnPath (indices.map truncated) k ↔ ∃ index ∈ indices, Above k (truncated index) := by
  simp [OnPath]

/-- The script agrees with the contract exactly when the truncation masks every index that has more than 31 bits. -/
theorem getHelperIndices_agrees_iff :
    ∀ indices : List ℕ, (∀ index ∈ indices, 1 ≤ index ∧ index ≤ 2 ^ 53 - 1) →
      (Agrees indices ↔ ∀ index ∈ indices, 2 ^ 31 ≤ index → Masked indices index) := by
  intro indices _
  rw [agrees_iff]
  constructor
  · intro exposed index listed _
    constructor
    · intro large
      by_contra apart
      rw [not_or] at apart
      have same := exposed (truncated index ^^^ 1) (two_le_sibling.mpr large) apart.2
      rw [sibling_sibling] at same
      exact apart.1 (same.mpr (onPath_truncated.mpr ⟨index, listed, .refl _⟩))
    · intro node large above
      by_cases covered : OnPath indices (node ^^^ 1)
      · exact .inl covered
      · have same := exposed (node ^^^ 1) (two_le_sibling.mpr large) covered
        rw [sibling_sibling] at same
        exact .inr (same.mp ⟨index, listed, above⟩)
  · intro masked k large off
    have node := two_le_sibling.mpr large
    constructor
    · rintro ⟨index, listed, above⟩
      by_cases small : index < 2 ^ 31
      · refine onPath_truncated.mpr ⟨index, listed, ?_⟩
        rwa [truncated_of_small small]
      · have cover := (masked index listed (Nat.le_of_not_lt small)).2 _ node above
        rw [sibling_sibling] at cover
        exact cover.resolve_left off
    · intro exposed
      obtain ⟨index, listed, above⟩ := onPath_truncated.mp exposed
      by_cases small : index < 2 ^ 31
      · rw [truncated_of_small small] at above
        exact ⟨index, listed, above⟩
      · have hangs := (masked index listed (Nat.le_of_not_lt small)).1 (node.trans above.le)
        rcases hangs with self | sibling
        · exact self.of_above above
        · rcases above_iff_parent.mp above with same | higher
          · rw [← same, sibling_sibling] at sibling
            exact absurd sibling off
          · rw [← sibling_div_two] at higher
            exact sibling.of_above higher.of_parent

/-- Two siblings with a sign bit mask each other when their parent is listed too. -/
theorem getHelperIndices_agrees_iff_masked : Agrees [2 ^ 31, 2 ^ 31 + 1, 2 ^ 30] := by
  apply (getHelperIndices_agrees_iff _ (by decide)).mpr
  have parent : OnPath ([2 ^ 31, 2 ^ 31 + 1, 2 ^ 30].map truncated) (2 ^ 30) := ⟨2 ^ 30, by decide, .refl _⟩
  have masked (index sibling : ℕ) (listed : sibling ∈ [2 ^ 31, 2 ^ 31 + 1, 2 ^ 30]) (same : index ^^^ 1 = sibling)
      (half : index / 2 = 2 ^ 30) (negative : truncated index = 0) :
      Masked [2 ^ 31, 2 ^ 31 + 1, 2 ^ 30] index := by
    refine ⟨fun large => absurd large (by omega), ?_⟩
    intro node _ above
    rcases above_iff_parent.mp above with rfl | higher
    · left
      rw [same]
      exact ⟨sibling, listed, .refl _⟩
    · right
      rw [half] at higher
      exact parent.of_above higher
  intro index listed large
  simp only [List.mem_cons, List.not_mem_nil, or_false] at listed
  rcases listed with rfl | rfl | rfl
  · exact masked _ (2 ^ 31 + 1) (by decide) (by decide) (by decide) (by decide)
  · exact masked _ (2 ^ 31) (by decide) (by decide) (by decide) (by decide)
  · exact absurd large (by decide)

/-- The first validator has no helper off the chain, since its truncated index is zero. -/
theorem getHelperIndices_first_validator :
    (∀ index ∈ [Pool.ZERO_VALIDATOR_INDEX], 1 ≤ index ∧ index ≤ 2 ^ 53 - 1) ∧
    getHelperIndices (numbers [Pool.ZERO_VALIDATOR_INDEX]) = [] ∧
    (∃ helpers, Merkle.getHelperIndices [Pool.ZERO_VALIDATOR_INDEX] = .ok helpers ∧ helpers.length = 49) ∧
    ¬ Agrees [Pool.ZERO_VALIDATOR_INDEX] := by
  have zero : truncated Pool.ZERO_VALIDATOR_INDEX = 0 := by decide +kernel
  have depth : Pool.ZERO_VALIDATOR_INDEX.log2 = 49 := by decide +kernel
  have built := Merkle.getHelperIndices_single (show 1 ≤ Pool.ZERO_VALIDATOR_INDEX by decide)
  have count : (Merkle.siblings Pool.ZERO_VALIDATOR_INDEX).length = 49 := by simp [Merkle.siblings, depth]
  have none : getHelperIndices (numbers [Pool.ZERO_VALIDATOR_INDEX]) = [] := by
    apply List.eq_nil_iff_forall_not_mem.mpr
    intro x
    rw [mem_getHelperIndices, List.map_singleton, zero]
    rintro ⟨k, _, large, exposed, _⟩
    have bound := (Merkle.onPath_singleton.mp exposed).le
    have sibling := two_le_sibling.mpr large
    omega
  refine ⟨by decide, none, ⟨_, built, count⟩, ?_⟩
  rw [agrees_singleton]
  decide

end SmoothlyPool.OffChain
