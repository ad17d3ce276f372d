import SmoothlyPool.Construction.Merkle
import SmoothlyPool.Library.GIndex
import Mathlib.Tactic

namespace SmoothlyPool

open Bytes32 Arrays GIndex

variable {B : Type}

theorem HashMap.set_flag (key : ℕ) (value : B) (map : HashMap B) :
    (map.set key value).flag = Function.update map.flag key true := rfl

theorem HashMap.set_value (key : ℕ) (value : B) (map : HashMap B) :
    (map.set key value).value = Function.update map.value key value := rfl

namespace Merkle

theorem canHash_iff {map : HashMap B} {k : ℕ} :
    canHash map k = true ↔ map.flag k = true ∧ map.flag (k ^^^ 1) = true ∧ map.flag (k / 2) = false := by
  simp [canHash, HashMap.contains, and_assoc]

/-- The keys 0 and 1 never pass the guard, since the parent of both is 0. -/
theorem two_le_of_canHash {map : HashMap B} {k : ℕ} (can : canHash map k = true) : 2 ≤ k := by
  obtain ⟨self, sibling, parent⟩ := canHash_iff.mp can
  by_contra small
  have cases : k = 0 ∨ k = 1 := by omega
  rcases cases with rfl | rfl
  · exact absurd (self.symm.trans parent) (by decide)
  · exact absurd (sibling.symm.trans parent) (by decide)

/-- The parent of a hashed key needs a smaller budget. -/
theorem log2_of_canHash {map : HashMap B} {k : ℕ} (can : canHash map k = true) : k.log2 = (k / 2).log2 + 1 := by
  rw [Nat.log2_def, if_pos (two_le_of_canHash can)]

/-- The children of a hashed parent are set. -/
theorem children_set {map : HashMap B} {k : ℕ} (can : canHash map k = true) :
    map.flag (2 * (k / 2)) = true ∧ map.flag (2 * (k / 2) + 1) = true := by
  obtain ⟨self, sibling, _⟩ := canHash_iff.mp can
  rcases children_cases k with ⟨left, right⟩ | ⟨left, right⟩
  · rw [right, left]
    exact ⟨self, sibling⟩
  · rw [right, left]
    exact ⟨sibling, self⟩

/-- The loop sets the flags of its keys. -/
theorem setAll_flag (keys : List ℕ) (values : List B) (map : HashMap B) (lengths : values.length = keys.length)
    (k : ℕ) : (setAll keys values map).flag k = true ↔ map.flag k = true ∨ k ∈ keys := by
  induction keys generalizing values map with
  | nil => simp [setAll]
  | cons key keys ih =>
      cases values with
      | nil => simp at lengths
      | cons value values =>
          rw [setAll, ih values _ (by simpa using lengths), HashMap.set_flag, List.mem_cons, ← or_assoc]
          apply or_congr_left
          by_cases same : k = key
          · simp [same]
          · simp [same]

/-- The loop leaves every other value as it was. -/
theorem setAll_value_of_notMem (keys : List ℕ) (values : List B) (map : HashMap B) {k : ℕ} (absent : k ∉ keys) :
    (setAll keys values map).value k = map.value k := by
  induction keys generalizing values map with
  | nil => simp [setAll]
  | cons key keys ih =>
      rw [List.mem_cons, not_or] at absent
      cases values with
      | nil => rfl
      | cons value values =>
          rw [setAll, ih values _ absent.2, HashMap.set_value, Function.update_of_ne absent.1]

/-- The value of a listed key comes from the list. -/
theorem setAll_value_of_mem (keys : List ℕ) (values : List B) (first second : HashMap B)
    (lengths : values.length = keys.length) {k : ℕ} (present : k ∈ keys) :
    (setAll keys values first).value k = (setAll keys values second).value k := by
  induction keys generalizing values first second with
  | nil => exact absurd present List.not_mem_nil
  | cons key keys ih =>
      cases values with
      | nil => simp at lengths
      | cons value values =>
          rw [setAll, setAll]
          by_cases again : k ∈ keys
          · exact ih values _ _ (by simpa using lengths) again
          · obtain rfl : k = key := (List.mem_cons.mp present).resolve_right again
            rw [setAll_value_of_notMem keys values _ again, setAll_value_of_notMem keys values _ again]
            rw [HashMap.set_value, HashMap.set_value, Function.update_self, Function.update_self]

/-- The values of a labelling give each listed key its label. -/
theorem setAll_map (label : ℕ → B) (keys : List ℕ) (map : HashMap B) {k : ℕ} (present : k ∈ keys) :
    (setAll keys (keys.map label) map).value k = label k := by
  induction keys generalizing map with
  | nil => exact absurd present List.not_mem_nil
  | cons key keys ih =>
      rw [List.map_cons, setAll]
      by_cases again : k ∈ keys
      · exact ih _ again
      · obtain rfl : k = key := (List.mem_cons.mp present).resolve_right again
        rw [setAll_value_of_notMem keys _ _ again, HashMap.set_value, Function.update_self]

/-- Every pair of set siblings without a set parent waits in the work list. -/
def Tracked (pending : List ℕ) (map : HashMap B) : Prop :=
  ∀ k, 2 ≤ k → map.flag k = true → map.flag (k ^^^ 1) = true → map.flag (k / 2) = false →
    k ∈ pending ∨ k ^^^ 1 ∈ pending

theorem Tracked.skip {k : ℕ} {pending : List ℕ} {map : HashMap B} (tracked : Tracked (k :: pending) map)
    (cannot : ¬ canHash map k = true) : Tracked pending map := by
  intro j large self sibling parent
  rw [canHash_iff] at cannot
  have selfOther : j ≠ k := by
    rintro rfl
    exact cannot ⟨self, sibling, parent⟩
  have siblingOther : j ^^^ 1 ≠ k := by
    rintro rfl
    rw [sibling_sibling, sibling_div_two] at cannot
    exact cannot ⟨sibling, self, parent⟩
  rcases tracked j large self sibling parent with waits | waits
  · exact .inl (List.mem_of_ne_of_mem selfOther waits)
  · exact .inr (List.mem_of_ne_of_mem siblingOther waits)

variable [Bytes32 B]

theorem hashPair_flag (map : HashMap B) (k : ℕ) :
    (hashPair map k).flag = Function.update map.flag (k / 2) true := rfl

theorem hashPair_value (map : HashMap B) (k : ℕ) :
    (hashPair map k).value = Function.update map.value (k / 2)
      (sha256 (map.value (2 * (k / 2))) (map.value (2 * (k / 2) + 1))) := by
  rw [hashPair, HashMap.set, HashMap.get, HashMap.get, left_eq, right_eq]

@[simp] theorem keyBudget_cons (k : ℕ) (pending : List ℕ) :
    keyBudget (k :: pending) = k.log2 + 1 + keyBudget pending := by
  rw [keyBudget, List.map_cons, List.sum_cons, keyBudget]

@[simp] theorem keyBudget_push (pending : List ℕ) (k : ℕ) :
    keyBudget (push pending k) = keyBudget pending + (k.log2 + 1) := by
  simp [keyBudget, push]

namespace Scan

/-- A scan reaches the states after its passes. -/
def Reaches : Scan B → Scan B → Prop := Relation.ReflTransGen fun scan after => scan.next = some after

/-- One pass reads one key, and it appends the parent of this key at most. -/
theorem next_cases {scan after : Scan B} (pass : scan.next = some after) :
    ∃ k ∈ scan.keys,
      canHash scan.map k = true ∧ after = ⟨push scan.keys (k / 2), scan.pos + 1, hashPair scan.map k⟩ ∨
        ¬ canHash scan.map k = true ∧ after = ⟨scan.keys, scan.pos + 1, scan.map⟩ := by
  rw [next] at pass
  by_cases inside : scan.pos < scan.keys.length
  · rw [dif_pos inside] at pass
    refine ⟨_, List.getElem_mem inside, ?_⟩
    by_cases can : canHash scan.map scan.keys[scan.pos] = true
    · rw [if_pos can] at pass
      exact .inl ⟨can, (Option.some.inj pass).symm⟩
    · rw [if_neg can] at pass
      exact .inr ⟨can, (Option.some.inj pass).symm⟩
  · rw [dif_neg inside] at pass
    cases pass

theorem halts {scan : Scan B} (past : ¬ scan.pos < scan.keys.length) (fuel : ℕ) :
    ∃ final, Reaches scan final ∧ final.next = none ∧
      hashKeys fuel (scan.keys.drop scan.pos) scan.map = .ok final.map := by
  rw [List.drop_eq_nil_of_le (Nat.le_of_not_lt past)]
  exact ⟨scan, .refl, dif_neg past, by cases fuel <;> rfl⟩

/-- The passes of the scan are the passes of `hashKeys`, and the budget pays for all of them. -/
theorem ends (fuel : ℕ) (scan : Scan B) (enough : keyBudget (scan.keys.drop scan.pos) ≤ fuel) :
    ∃ final, Reaches scan final ∧ final.next = none ∧
      hashKeys fuel (scan.keys.drop scan.pos) scan.map = .ok final.map := by
  induction fuel generalizing scan with
  | zero =>
      apply halts
      intro inside
      rw [List.drop_eq_getElem_cons inside, keyBudget_cons] at enough
      omega
  | succ fuel ih =>
      by_cases inside : scan.pos < scan.keys.length
      · have queue := List.drop_eq_getElem_cons inside
        generalize first : scan.keys[scan.pos] = k at queue
        rw [queue, keyBudget_cons] at enough
        rw [queue, hashKeys]
        by_cases can : canHash scan.map k = true
        · have pass : scan.next = some ⟨push scan.keys (k / 2), scan.pos + 1, hashPair scan.map k⟩ := by
            simp [next, inside, first, can]
          have grown : (push scan.keys (k / 2)).drop (scan.pos + 1) =
              push (scan.keys.drop (scan.pos + 1)) (k / 2) :=
            List.drop_append_of_le_length inside
          have half := log2_of_canHash can
          obtain ⟨final, reaches, stops, ran⟩ :=
            ih ⟨push scan.keys (k / 2), scan.pos + 1, hashPair scan.map k⟩
              (by simp only [grown, keyBudget_push]; omega)
          rw [if_pos can, ← grown]
          exact ⟨final, .head pass reaches, stops, ran⟩
        · have pass : scan.next = some ⟨scan.keys, scan.pos + 1, scan.map⟩ := by
            simp [next, inside, first, can]
          obtain ⟨final, reaches, stops, ran⟩ := ih ⟨scan.keys, scan.pos + 1, scan.map⟩ (by dsimp only; omega)
          rw [if_neg can]
          exact ⟨final, .head pass reaches, stops, ran⟩
      · exact halts inside _

end Scan

/-- The budget of the keys is enough fuel. -/
theorem hashKeys_ok (fuel : ℕ) (pending : List ℕ) (map : HashMap B) (enough : keyBudget pending ≤ fuel) :
    ∃ final, hashKeys fuel pending map = .ok final := by
  obtain ⟨final, _, _, ran⟩ := Scan.ends fuel ⟨pending, 0, map⟩ enough
  exact ⟨final.map, ran⟩

/-- A finished run either hashes the first key, skips it, or has no key left. -/
theorem hashKeys_induction {final : HashMap B} {motive : ℕ → List ℕ → HashMap B → Prop}
    (done : ∀ fuel, motive fuel [] final)
    (hash : ∀ fuel k pending map, canHash map k = true → motive fuel (push pending (k / 2)) (hashPair map k) →
      motive (fuel + 1) (k :: pending) map)
    (skip : ∀ fuel k pending map, ¬ canHash map k = true → motive fuel pending map →
      motive (fuel + 1) (k :: pending) map)
    {fuel : ℕ} {pending : List ℕ} {map : HashMap B} (ran : hashKeys fuel pending map = .ok final) :
    motive fuel pending map := by
  induction fuel generalizing pending map with
  | zero =>
      cases pending with
      | nil =>
          obtain rfl : map = final := by simpa [hashKeys] using ran
          exact done 0
      | cons k pending => simp [hashKeys] at ran
  | succ fuel ih =>
      cases pending with
      | nil =>
          obtain rfl : map = final := by simpa [hashKeys] using ran
          exact done (fuel + 1)
      | cons k pending =>
          rw [hashKeys] at ran
          split_ifs at ran with can
          · exact hash fuel k pending map can (ih ran)
          · exact skip fuel k pending map can (ih ran)

/-- What each hash step preserves holds of the final map. -/
theorem hashKeys_invariant {P : HashMap B → Prop}
    (step : ∀ map k, P map → canHash map k = true → P (hashPair map k)) {fuel : ℕ} {pending : List ℕ}
    {map final : HashMap B} (start : P map) (ran : hashKeys fuel pending map = .ok final) : P final := by
  apply @hashKeys_induction _ _ final (fun _ _ map => P map → P final) _ _ _ _ _ _ ran start
  · exact fun _ reached => reached
  · exact fun _ k _ map can later reached => later (step map k reached can)
  · exact fun _ _ _ _ _ later => later

/-- Two maps that pass the guard alike stay related while the same work list runs on both. -/
theorem hashKeys_simulation {R : HashMap B → HashMap B → Prop}
    (guard : ∀ first second k, R first second → canHash first k = canHash second k)
    (step : ∀ first second k, R first second → canHash first k = true →
      R (hashPair first k) (hashPair second k))
    {fuel : ℕ} {pending : List ℕ} {first second final : HashMap B} (related : R first second)
    (ran : hashKeys fuel pending first = .ok final) :
    ∃ other, hashKeys fuel pending second = .ok other ∧ R final other := by
  apply @hashKeys_induction _ _ final (fun fuel pending first => ∀ second, R first second →
    ∃ other, hashKeys fuel pending second = .ok other ∧ R final other) _ _ _ _ _ _ ran second related
  · intro fuel second related
    exact ⟨second, by cases fuel <;> rfl, related⟩
  · intro fuel k pending first can later second related
    rw [hashKeys, ← guard first second k related, if_pos can]
    exact later _ (step first second k related can)
  · intro fuel k pending first cannot later second related
    rw [hashKeys, ← guard first second k related, if_neg cannot]
    exact later second related

/-- The final map keeps the set keys, and every new key holds the hash of its children, which are set. -/
structure Extends (map final : HashMap B) : Prop where
  kept : ∀ k, map.flag k = true → final.flag k = true ∧ final.value k = map.value k
  made : ∀ k, final.flag k = true → map.flag k = false →
    1 ≤ k ∧ final.flag (2 * k) = true ∧ final.flag (2 * k + 1) = true ∧ HashedAt sha256 final.value k

theorem Extends.refl (map : HashMap B) : Extends map map where
  kept _ set := ⟨set, rfl⟩
  made _ set fresh := absurd (set.symm.trans fresh) (by decide)

theorem Extends.step {first mid : HashMap B} {k : ℕ} (extends_ : Extends first mid)
    (can : canHash mid k = true) : Extends first (hashPair mid k) := by
  obtain ⟨_, _, unset⟩ := canHash_iff.mp can
  have large := two_le_of_canHash can
  have stays (j : ℕ) (set : mid.flag j = true) :
      (hashPair mid k).flag j = true ∧ (hashPair mid k).value j = mid.value j := by
    have other : j ≠ k / 2 := by
      rintro rfl
      exact absurd (set.symm.trans unset) (by decide)
    rw [hashPair_flag, hashPair_value, Function.update_of_ne other, Function.update_of_ne other]
    exact ⟨set, rfl⟩
  constructor
  · intro j set
    obtain ⟨kept, same⟩ := extends_.kept j set
    obtain ⟨still, value⟩ := stays j kept
    exact ⟨still, value.trans same⟩
  · intro j set fresh
    by_cases new : j = k / 2
    · subst new
      obtain ⟨left, right⟩ := children_set can
      obtain ⟨leftSet, leftSame⟩ := stays _ left
      obtain ⟨rightSet, rightSame⟩ := stays _ right
      refine ⟨by omega, leftSet, rightSet, ?_⟩
      rw [HashedAt, leftSame, rightSame, hashPair_value, Function.update_self]
    · rw [hashPair_flag, Function.update_of_ne new] at set
      obtain ⟨positive, left, right, hashed⟩ := extends_.made j set fresh
      obtain ⟨leftSet, leftSame⟩ := stays _ left
      obtain ⟨rightSet, rightSame⟩ := stays _ right
      refine ⟨positive, leftSet, rightSet, ?_⟩
      rw [HashedAt, leftSame, rightSame, (stays j set).2]
      exact hashed

theorem hashKeys_extends {fuel : ℕ} {pending : List ℕ} {map final : HashMap B}
    (ran : hashKeys fuel pending map = .ok final) : Extends map final :=
  hashKeys_invariant (fun _ _ extends_ can => extends_.step can) (Extends.refl map) ran

theorem Tracked.hash {k : ℕ} {pending : List ℕ} {map : HashMap B} (tracked : Tracked (k :: pending) map) :
    Tracked (push pending (k / 2)) (hashPair map k) := by
  intro j large self sibling parent
  rw [hashPair_flag] at self sibling parent
  have fresh : j / 2 ≠ k / 2 := by
    intro same
    rw [same, Function.update_self] at parent
    exact absurd parent (by decide)
  rw [Function.update_of_ne fresh] at parent
  rw [push, List.mem_append, List.mem_append, List.mem_singleton, List.mem_singleton]
  by_cases selfNew : j = k / 2
  · exact .inl (.inr selfNew)
  · by_cases siblingNew : j ^^^ 1 = k / 2
    · exact .inr (.inr siblingNew)
    · rw [Function.update_of_ne selfNew] at self
      rw [Function.update_of_ne siblingNew] at sibling
      have selfOther : j ≠ k := fun same => fresh (congrArg (· / 2) same)
      have siblingOther : j ^^^ 1 ≠ k := by
        intro same
        rw [← same, sibling_div_two] at fresh
        exact fresh rfl
      rcases tracked j large self sibling parent with waits | waits
      · exact .inl (.inl (List.mem_of_ne_of_mem selfOther waits))
      · exact .inr (.inl (List.mem_of_ne_of_mem siblingOther waits))

/-- The finished work list leaves no pair of set siblings without a set parent. -/
theorem hashKeys_closed {fuel : ℕ} {pending : List ℕ} {map final : HashMap B} (tracked : Tracked pending map)
    (ran : hashKeys fuel pending map = .ok final) {k : ℕ} (large : 2 ≤ k) (self : final.flag k = true)
    (sibling : final.flag (k ^^^ 1) = true) : final.flag (k / 2) = true := by
  apply @hashKeys_induction _ _ final (fun _ pending map => Tracked pending map → final.flag (k / 2) = true)
    _ _ _ _ _ _ ran tracked
  · intro _ tracked
    by_contra unset
    have waits := tracked k large self sibling (Bool.eq_false_iff.mpr unset)
    simp at waits
  · exact fun _ _ _ _ _ later tracked => later tracked.hash
  · exact fun _ _ _ _ cannot later tracked => later (tracked.skip cannot)

end Merkle

end SmoothlyPool
