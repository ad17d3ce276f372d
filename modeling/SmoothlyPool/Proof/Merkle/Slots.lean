import SmoothlyPool.Construction.Slots
import SmoothlyPool.Proof.Merkle.History

namespace SmoothlyPool.Slots

open Bytes32 Checked Arrays Merkle GIndex

/-- The keys are closed under siblings and parents. -/
structure Closed (keys : Set ℕ) : Prop where
  sibling : ∀ k ∈ keys, k ^^^ 1 ∈ keys
  parent : ∀ k ∈ keys, k / 2 ∈ keys

/-- The slots of the values and of the flags of all keys are distinct. -/
structure Separate (keccak : ℕ → Word) (keys : Set ℕ) : Prop where
  injective : ∀ k ∈ keys, ∀ j ∈ keys, keccak k = keccak j → k = j
  apart : ∀ k ∈ keys, ∀ j ∈ keys, keccak k ≠ keccak j + 32

/-- These are the slots of the keys. -/
def Owned (keccak : ℕ → Word) (keys : Set ℕ) (slot : Word) : Prop :=
  ∃ k ∈ keys, slot = keccak k ∨ slot = keccak k + 32

section Closed

variable {keys : Set ℕ}

theorem Closed.div (closed : Closed keys) {k : ℕ} (member : k ∈ keys) (height : ℕ) : k / 2 ^ height ∈ keys := by
  induction height with
  | zero => rwa [pow_zero, Nat.div_one]
  | succ height ih =>
      rw [pow_succ, ← Nat.div_div_eq_div_mul]
      exact closed.parent _ ih

/-- Both children of the parent of a key are keys. -/
theorem Closed.children (closed : Closed keys) {k : ℕ} (member : k ∈ keys) :
    (k ||| 1) ^^^ 1 ∈ keys ∧ k ||| 1 ∈ keys := by
  have sibling := closed.sibling k member
  rw [left_eq, right_eq]
  rcases children_cases k with ⟨left, right⟩ | ⟨left, right⟩ <;> rw [right, left]
  · exact ⟨member, sibling⟩
  · exact ⟨sibling, member⟩

/-- The helper indices are siblings of ancestors of the indices. -/
theorem Closed.helpers (closed : Closed keys) {indices helpers : List ℕ} (listed : ∀ k ∈ indices, k ∈ keys)
    (completes : Completes helpers indices) : ∀ h ∈ helpers, h ∈ keys := by
  intro h helper
  obtain ⟨_, ⟨index, member, height, above⟩, _⟩ := (completes h).mp helper
  have sibling := closed.sibling _ (above ▸ closed.div (listed index member) height)
  rwa [sibling_sibling] at sibling

end Closed

variable {B : Type} [Bytes32 B] {keccak : ℕ → Word} {keys : Set ℕ}

/-- The slots of a key hold its value and its flag, and the other slots are as they were at first. -/
structure Models (keccak : ℕ → Word) (keys : Set ℕ) (initial storage : Word → B) (map : HashMap B) : Prop where
  value : ∀ k ∈ keys, storage (keccak k) = map.value k
  flag : ∀ k ∈ keys, storage (keccak k + 32) ≠ zero ↔ map.flag k = true
  frame : ∀ slot, ¬ Owned keccak keys slot → storage slot = initial slot

section Steps

variable {initial storage : Word → B} {map : HashMap B}

/-- A store writes the two slots of its key. -/
theorem Models.set (one : (word 1 : B) ≠ zero) (separate : Separate keccak keys)
    (models : Models keccak keys initial storage map) {key : ℕ} (member : key ∈ keys) (value : B) :
    Models keccak keys initial (set keccak key value storage) (map.set key value) := by
  have injective {k : ℕ} (other : k ∈ keys) (differs : k ≠ key) : keccak k ≠ keccak key := fun same =>
    differs (separate.injective k other key member same)
  have self : keccak key + 32 ≠ keccak key := fun same => separate.apart key member key member same.symm
  constructor
  · intro k other
    rw [Slots.set, HashMap.set_value, Function.update_of_ne (separate.apart k other key member)]
    by_cases same : k = key
    · rw [same, Function.update_self, Function.update_self]
    · rw [Function.update_of_ne same, Function.update_of_ne (injective other same)]
      exact models.value k other
  · intro k other
    rw [Slots.set, HashMap.set_flag]
    by_cases same : k = key
    · rw [same, Function.update_self, Function.update_self]
      exact iff_of_true one rfl
    · have apart : keccak k + 32 ≠ keccak key + 32 := fun shifted =>
        injective other same ((BitVec.add_left_inj 32).mp shifted)
      rw [Function.update_of_ne same, Function.update_of_ne apart,
        Function.update_of_ne fun shifted => separate.apart key member k other shifted.symm]
      exact models.flag k other
  · intro slot foreign
    have first : slot ≠ keccak key + 32 := fun same => foreign ⟨key, member, .inr same⟩
    have second : slot ≠ keccak key := fun same => foreign ⟨key, member, .inl same⟩
    rw [Slots.set, Function.update_of_ne first, Function.update_of_ne second]
    exact models.frame slot foreign

theorem Models.setAll (one : (word 1 : B) ≠ zero) (separate : Separate keccak keys) (listed : List ℕ)
    (values : List B) (members : ∀ k ∈ listed, k ∈ keys) (models : Models keccak keys initial storage map) :
    Models keccak keys initial (setAll keccak listed values storage) (Merkle.setAll listed values map) := by
  induction listed generalizing values storage map with
  | nil => exact models
  | cons key rest ih =>
      cases values with
      | nil => exact models
      | cons value values =>
          exact ih values (fun k later => members k (.tail key later))
            (models.set one separate (members key List.mem_cons_self) value)

theorem Models.hashPair (one : (word 1 : B) ≠ zero) (separate : Separate keccak keys) (closed : Closed keys)
    (models : Models keccak keys initial storage map) {k : ℕ} (member : k ∈ keys) :
    Models keccak keys initial (hashPair keccak storage k) (Merkle.hashPair map k) := by
  obtain ⟨left, right⟩ := closed.children member
  rw [Slots.hashPair, Merkle.hashPair, get, get, models.value _ left, models.value _ right]
  exact models.set one separate (closed.parent k member) _

variable [DecidableEq B]

theorem Models.contains (models : Models keccak keys initial storage map) {k : ℕ} (member : k ∈ keys) :
    contains keccak k storage = map.contains k := by
  rw [Slots.contains, HashMap.contains, Bool.eq_iff_iff, decide_eq_true_iff]
  exact models.flag k member

theorem Models.canHash (closed : Closed keys) (models : Models keccak keys initial storage map) {k : ℕ}
    (member : k ∈ keys) : canHash keccak storage k = Merkle.canHash map k := by
  rw [Slots.canHash, Merkle.canHash, models.contains member, models.contains (closed.sibling k member),
    models.contains (closed.parent k member)]

/-- The same work list runs on the slots and on the map. -/
theorem Models.hashKeys (one : (word 1 : B) ≠ zero) (separate : Separate keccak keys) (closed : Closed keys)
    (fuel : ℕ) {pending : List ℕ} (members : ∀ k ∈ pending, k ∈ keys)
    (models : Models keccak keys initial storage map) {final : HashMap B}
    (ran : Merkle.hashKeys fuel pending map = .ok final) :
    ∃ after, hashKeys keccak fuel pending storage = .ok after ∧ Models keccak keys initial after final := by
  refine hashKeys_induction (motive := fun fuel pending map => ∀ storage, (∀ k ∈ pending, k ∈ keys) →
    Models keccak keys initial storage map →
    ∃ after, Slots.hashKeys keccak fuel pending storage = .ok after ∧ Models keccak keys initial after final)
    ?_ ?_ ?_ ran storage members models
  · intro fuel storage _ models
    exact ⟨storage, by cases fuel <;> rfl, models⟩
  · intro fuel k pending map can later storage members models
    have member := members k List.mem_cons_self
    rw [Slots.hashKeys, models.canHash closed member, if_pos can]
    refine later _ ?_ (models.hashPair one separate closed member)
    intro j also
    rw [push, List.mem_append, List.mem_singleton] at also
    rcases also with waits | rfl
    · exact members j (.tail k waits)
    · exact closed.parent k member
  · intro fuel k pending map cannot later storage members models
    rw [Slots.hashKeys, models.canHash closed (members k List.mem_cons_self), if_neg cannot]
    exact later storage (fun j also => members j (.tail k also)) models

/-- One multiproof fails alike on the slots and on the map, or both return one root. -/
theorem Models.multiproof (one : (word 1 : B) ≠ zero) (separate : Separate keccak keys) (closed : Closed keys)
    (root : 1 ∈ keys) {indices : List ℕ} (listed : ∀ k ∈ indices, k ∈ keys) (proof leaves : List B)
    (models : Models keccak keys initial storage map) :
    (∃ failure, calculateMultiMerkleRoot keccak proof leaves indices storage = .error failure ∧
      Merkle.calculateMultiMerkleRoot proof leaves indices map = .error failure) ∨
    ∃ result after final, calculateMultiMerkleRoot keccak proof leaves indices storage = .ok (result, after) ∧
      Merkle.calculateMultiMerkleRoot proof leaves indices map = .ok (result, final) ∧
      Models keccak keys initial after final := by
  obtain ⟨helpers, built, completes⟩ := getHelperIndices_ok indices
  have helped := closed.helpers listed completes
  have waits : ∀ k ∈ startKeys helpers indices, k ∈ keys := by
    intro k member
    exact (mem_startKeys.mp member).elim (helped k) (listed k)
  have supplied := (models.setAll one separate helpers proof helped).setAll one separate indices leaves listed
  obtain ⟨final, ran⟩ := hashKeys_ok (keyBudget (startKeys helpers indices)) (startKeys helpers indices)
    (supply helpers proof indices leaves map) le_rfl
  obtain ⟨after, hashes, held⟩ := supplied.hashKeys one separate closed _ waits ran
  rw [Slots.calculateMultiMerkleRoot, Merkle.calculateMultiMerkleRoot, built]
  simp only [ok_bind, require]
  split_ifs
  · right
    rw [startKeys] at hashes ran
    rw [supply] at ran
    refine ⟨final.value 1, after, final, ?_, ?_, held⟩
    · simp only [ok_bind, hashes, get, held.value 1 root]
    · simp only [ok_bind, ran, HashMap.get]
  all_goals exact .inl ⟨.invalidProof, rfl, rfl⟩

/-- The calls run one after another in one transaction.  A call that reverts leaves the storage as it was. -/
def runCalls (keccak : ℕ → Word) : List (MultiproofCall B) → (Word → B) → List (Except Revert B) × (Word → B)
  | [], storage => ([], storage)
  | call :: rest, storage =>
      match calculateMultiMerkleRoot keccak call.proof call.leaves call.indices storage with
      | .ok (root, next) => ((runCalls keccak rest next).map (.ok root :: ·) id)
      | .error failure => ((runCalls keccak rest storage).map (.error failure :: ·) id)

theorem Models.runCalls (one : (word 1 : B) ≠ zero) (separate : Separate keccak keys) (closed : Closed keys)
    (root : 1 ∈ keys) {calls : List (MultiproofCall B)} (listed : ∀ call ∈ calls, ∀ k ∈ call.indices, k ∈ keys)
    (models : Models keccak keys initial storage map) :
    (runCalls keccak calls storage).1 = Merkle.runCalls calls map ∧
      ∀ slot, ¬ Owned keccak keys slot → (runCalls keccak calls storage).2 slot = initial slot := by
  induction calls generalizing storage map with
  | nil => exact ⟨rfl, models.frame⟩
  | cons call rest ih =>
      have later : ∀ call ∈ rest, ∀ k ∈ call.indices, k ∈ keys := fun call member => listed call (.tail _ member)
      rcases models.multiproof one separate closed root (listed call List.mem_cons_self) call.proof call.leaves with
        ⟨failure, fails, alike⟩ | ⟨result, after, final, returns, alike, held⟩
      · obtain ⟨outcomes, kept⟩ := ih later models
        rw [Slots.runCalls, Merkle.runCalls, MultiproofCall.run, fails, alike]
        exact ⟨congrArg _ outcomes, kept⟩
      · obtain ⟨outcomes, kept⟩ := ih later held
        rw [Slots.runCalls, Merkle.runCalls, MultiproofCall.run, returns, alike]
        exact ⟨congrArg _ outcomes, kept⟩

end Steps

variable [DecidableEq B]

/-- In one transaction every sequence of multiproofs has the same outcomes on the slots as on the map, when the slots
of the keys in use are distinct and empty at first.  All other slots stay as they are. -/
theorem runCalls_refines (one : (word 1 : B) ≠ zero) (separate : Separate keccak keys) (closed : Closed keys)
    (root : 1 ∈ keys) {initial : Word → B} (empty : ∀ slot, Owned keccak keys slot → initial slot = zero)
    {calls : List (MultiproofCall B)} (listed : ∀ call ∈ calls, ∀ k ∈ call.indices, k ∈ keys) :
    (runCalls keccak calls initial).1 = Merkle.runCalls calls .empty ∧
      ∀ slot, ¬ Owned keccak keys slot → (runCalls keccak calls initial).2 slot = initial slot := by
  have models : Models keccak keys initial initial .empty := by
    refine ⟨fun k member => empty _ ⟨k, member, .inl rfl⟩, ?_, fun _ _ => rfl⟩
    intro k member
    rw [empty _ ⟨k, member, .inr rfl⟩]
    simp [HashMap.empty]
  exact models.runCalls one separate closed root listed

/-- These are the hashes of the first four keys. -/
def sampleKeccak (key : ℕ) : Word :=
  match key with
  | 0 => 0x290decd9548b62a8d60345a988386fc84ba6bc95484008f6362f93160ef3e563
  | 1 => 0xb10e2d527612073b26eecdfd717e6a320cf44b4afac2b0732d9fcbe2b7fa0cf6
  | 2 => 0x405787fa12a823e0f2b7631cc41b3ba8828b3321ca811111fa75cd3aa3bb5ace
  | 3 => 0xc2575a0e9e593c00f959f8c92f12db2869c3395a3b0502d05e2516446f71f85b
  | _ => 0

/-- A second multiproof of both children of the root returns the root of the first one. -/
theorem twoCalls_refined : (runCalls sampleKeccak [⟨[], [Term.word 5, .word 6], [2, 3]⟩,
      ⟨[], [.word 7, .word 8], [2, 3]⟩] fresh).1 =
    [.ok (.hash (.word 5) (.word 6)), .ok (.hash (.word 5) (.word 6))] := by
  have shifts : ∀ k < 4, k ^^^ 1 < 4 ∧ k / 2 < 4 := by decide
  have distinct : ∀ k < 4, ∀ j < 4, (sampleKeccak k = sampleKeccak j → k = j) ∧
      sampleKeccak k ≠ sampleKeccak j + 32 := by decide +kernel
  have separate : Separate sampleKeccak {k | k < 4} :=
    ⟨fun k member j other => (distinct k member j other).1, fun k member j other => (distinct k member j other).2⟩
  have closed : Closed {k | k < 4} := ⟨fun k member => (shifts k member).1, fun k member => (shifts k member).2⟩
  have refined := @runCalls_refines Term _ sampleKeccak {k | k < 4} _ (by decide) separate closed (by decide : 1 < 4)
    fresh (fun _ _ => rfl) [⟨[], [.word 5, .word 6], [2, 3]⟩, ⟨[], [.word 7, .word 8], [2, 3]⟩] (by simp)
  exact refined.1.trans (by decide +kernel)

end SmoothlyPool.Slots
