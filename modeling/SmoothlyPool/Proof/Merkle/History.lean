import SmoothlyPool.Proof.Merkle.Multiproof
import SmoothlyPool.Proof.Strings

namespace SmoothlyPool.Merkle

open Bytes32 Checked Arrays GIndex

/-- These are the arguments of one multiproof. -/
structure MultiproofCall (B : Type) where
  proof : List B
  leaves : List B
  indices : List ℕ

section Calls

variable {B : Type} [Bytes32 B]

namespace MultiproofCall

def run (call : MultiproofCall B) (map : HashMap B) : Except Revert (B × HashMap B) :=
  calculateMultiMerkleRoot call.proof call.leaves call.indices map

/-- This is the outcome of the call in a transaction of its own. -/
def alone (call : MultiproofCall B) : Except Revert B := (call.run .empty).map Prod.fst

/-- Every leaf and every helper of the call is the same string. -/
def constant (value : B) (helpers indices : List ℕ) : MultiproofCall B :=
  ⟨helpers.map fun _ => value, indices.map fun _ => value, indices⟩

end MultiproofCall

/-- The calls run one after another in one transaction.  A call that reverts leaves the map as it was. -/
def runCalls : List (MultiproofCall B) → HashMap B → List (Except Revert B)
  | [], _ => []
  | call :: rest, map =>
      match call.run map with
      | .ok (root, next) => .ok root :: runCalls rest next
      | .error failure => .error failure :: runCalls rest map

/-- Every call has the outcome that it has alone. -/
def HistoryIndependent (calls : List (MultiproofCall B)) : Prop :=
  runCalls calls .empty = calls.map MultiproofCall.alone

/-- An earlier list of indices that reaches the root forces a later one to list the root. -/
def ListsRoot (earlier later : List ℕ) : Prop := (∃ index ∈ earlier, 1 ≤ index) → 1 ∈ later

/-- Lists of the right lengths suffice for a result. -/
theorem calculateMultiMerkleRoot_of_lengths {proof leaves : List B} {helpers indices : List ℕ}
    (map : HashMap B) (built : getHelperIndices indices = .ok helpers)
    (leafCount : leaves.length = indices.length) (proofCount : proof.length = helpers.length) :
    ∃ final, hashKeys (keyBudget (startKeys helpers indices)) (startKeys helpers indices)
        (supply helpers proof indices leaves map) = .ok final ∧
      calculateMultiMerkleRoot proof leaves indices map = .ok (final.value 1, final) := by
  obtain ⟨final, ran⟩ := hashKeys_ok (keyBudget (startKeys helpers indices)) (startKeys helpers indices)
    (supply helpers proof indices leaves map) le_rfl
  exact ⟨final, ran, (calculateMultiMerkleRoot_ok built).mpr ⟨leafCount, proofCount, ran, rfl⟩⟩

/-- Lists of wrong lengths are refused whatever the map holds. -/
theorem calculateMultiMerkleRoot_refused {proof leaves : List B} {helpers indices : List ℕ} (map : HashMap B)
    (built : getHelperIndices indices = .ok helpers)
    (wrong : ¬ (leaves.length = indices.length ∧ proof.length = helpers.length)) :
    calculateMultiMerkleRoot proof leaves indices map = .error .invalidProof := by
  rw [calculateMultiMerkleRoot]
  by_cases leafCount : leaves.length = indices.length
  · have proofCount : ¬ proof.length = helpers.length := fun same => wrong ⟨leafCount, same⟩
    rw [require, if_pos leafCount, ok_bind, built, ok_bind, require, if_neg proofCount, error_bind]
  · rw [require, if_neg leafCount, error_bind]

/-- A call whose outcome is its own on every map.  The root comes from the listed leaf. -/
theorem root_of_listed {call : MultiproofCall B} (listed : 1 ∈ call.indices) (map : HashMap B) :
    (call.run map).map Prod.fst = call.alone := by
  obtain ⟨helpers, built, _⟩ := getHelperIndices_ok call.indices
  by_cases counts : call.leaves.length = call.indices.length ∧ call.proof.length = helpers.length
  · obtain ⟨leafCount, proofCount⟩ := counts
    obtain ⟨final, ran, computed⟩ := calculateMultiMerkleRoot_of_lengths map built leafCount proofCount
    obtain ⟨final', ran', computed'⟩ := calculateMultiMerkleRoot_of_lengths .empty built leafCount proofCount
    have kept := ((hashKeys_extends ran).kept 1 ((supply_flag leafCount proofCount).mpr (.inr (.inr listed)))).2
    have kept' := ((hashKeys_extends ran').kept 1
      ((supply_flag leafCount proofCount).mpr (.inr (.inr listed)))).2
    have same : (supply helpers call.proof call.indices call.leaves map).value 1 =
        (supply helpers call.proof call.indices call.leaves .empty).value 1 :=
      supply_value_of_mem leafCount proofCount .empty (.inr listed)
    rw [MultiproofCall.alone, MultiproofCall.run, MultiproofCall.run, computed, computed']
    exact congrArg Except.ok (kept.trans (same.trans kept'.symm))
  · rw [MultiproofCall.alone, MultiproofCall.run, MultiproofCall.run,
      calculateMultiMerkleRoot_refused map built counts, calculateMultiMerkleRoot_refused .empty built counts]

/-- The maps agree on the nodes of the tree, which start at 1. -/
def Agree (first second : HashMap B) : Prop :=
  ∀ k, 1 ≤ k → first.flag k = second.flag k ∧ first.value k = second.value k

omit [Bytes32 B] in
theorem Agree.guard {first second : HashMap B} (agree : Agree first second) (k : ℕ) :
    canHash first k = canHash second k := by
  by_cases large : 2 ≤ k
  · have sibling := two_le_sibling.mpr large
    rw [canHash, canHash, HashMap.contains, HashMap.contains, HashMap.contains, HashMap.contains,
      HashMap.contains, HashMap.contains, (agree k (by omega)).1, (agree (k ^^^ 1) (by omega)).1,
      (agree (k / 2) (by omega)).1]
  · have none (map : HashMap B) : canHash map k = false :=
      Bool.eq_false_iff.mpr fun can => large (two_le_of_canHash can)
    rw [none first, none second]

theorem Agree.hash {first second : HashMap B} {k : ℕ} (agree : Agree first second) (can : canHash first k = true) :
    Agree (hashPair first k) (hashPair second k) := by
  have large := two_le_of_canHash can
  intro j positive
  rw [hashPair_flag, hashPair_flag, hashPair_value, hashPair_value]
  by_cases new : j = k / 2
  · subst new
    rw [(agree (2 * (k / 2)) (by omega)).2, (agree (2 * (k / 2) + 1) (by omega)).2]
    simp
  · simp only [Function.update_of_ne new]
    exact agree j positive

omit [Bytes32 B] in
theorem Agree.supply {first second : HashMap B} {proof leaves : List B} {helpers indices : List ℕ}
    (agree : Agree first second) (leafCount : leaves.length = indices.length)
    (proofCount : proof.length = helpers.length) :
    Agree (supply helpers proof indices leaves first) (supply helpers proof indices leaves second) := by
  intro k positive
  constructor
  · rw [Bool.eq_iff_iff, supply_flag leafCount proofCount, supply_flag leafCount proofCount, (agree k positive).1]
  · by_cases present : k ∈ helpers ∨ k ∈ indices
    · exact supply_value_of_mem leafCount proofCount second present
    · rw [not_or] at present
      rw [supply_value_of_notMem present.1 present.2, supply_value_of_notMem present.1 present.2]
      exact (agree k positive).2

/-- Agreeing maps give one outcome. -/
theorem root_of_agree {call : MultiproofCall B} {map : HashMap B} (agree : Agree map .empty) :
    (call.run map).map Prod.fst = call.alone := by
  obtain ⟨helpers, built, _⟩ := getHelperIndices_ok call.indices
  by_cases counts : call.leaves.length = call.indices.length ∧ call.proof.length = helpers.length
  · obtain ⟨leafCount, proofCount⟩ := counts
    obtain ⟨final, ran, computed⟩ := calculateMultiMerkleRoot_of_lengths map built leafCount proofCount
    obtain ⟨final', ran', computed'⟩ := calculateMultiMerkleRoot_of_lengths .empty built leafCount proofCount
    obtain ⟨other, runs, agrees⟩ := hashKeys_simulation (fun _ _ k agree => agree.guard k)
      (fun _ _ _ agree can => agree.hash can) (agree.supply leafCount proofCount) ran
    obtain rfl : final' = other := Except.ok.inj (ran'.symm.trans runs)
    rw [MultiproofCall.alone, MultiproofCall.run, MultiproofCall.run, computed, computed']
    exact congrArg Except.ok (agrees 1 le_rfl).2
  · rw [MultiproofCall.alone, MultiproofCall.run, MultiproofCall.run,
      calculateMultiMerkleRoot_refused map built counts, calculateMultiMerkleRoot_refused .empty built counts]

/-- A call that lists the key 0 alone leaves the nodes of the tree alone. -/
theorem agree_of_zeros {call : MultiproofCall B} {map next : HashMap B} {root : B} (agree : Agree map .empty)
    (zeros : ¬ ∃ index ∈ call.indices, 1 ≤ index) (ran : call.run map = .ok (root, next)) :
    Agree next .empty := by
  obtain ⟨helpers, built, completes⟩ := getHelperIndices_ok call.indices
  obtain ⟨leafCount, proofCount, ran, _⟩ := (calculateMultiMerkleRoot_ok built).mp ran
  apply hashKeys_invariant (P := fun map => Agree map .empty) _ _ ran
  · intro map k agree can
    obtain ⟨set, _⟩ := canHash_iff.mp can
    have unset := (agree k (Nat.one_le_of_lt (two_le_of_canHash can))).1
    exact absurd (set.symm.trans unset) (by simp [HashMap.empty])
  · intro k positive
    have unlisted : k ∉ call.indices := fun listed => zeros ⟨k, listed, positive⟩
    have noHelper : k ∉ helpers := by
      intro helper
      obtain ⟨large, ⟨index, listed, above⟩, _⟩ := (completes k).mp helper
      have sibling := two_le_sibling.mpr large
      have bound := above.le
      exact zeros ⟨index, listed, by omega⟩
    obtain ⟨flag, value⟩ := agree k positive
    constructor
    · rw [← flag, Bool.eq_iff_iff, supply_flag leafCount proofCount]
      tauto
    · rw [supply_value_of_notMem noHelper unlisted, value]

/-- The induction keeps that the map agrees with the empty one unless all calls list the root. -/
theorem runCalls_of_pairwise {calls : List (MultiproofCall B)} {map : HashMap B}
    (ordered : (calls.map MultiproofCall.indices).Pairwise ListsRoot)
    (clean : Agree map .empty ∨ ∀ call ∈ calls, 1 ∈ call.indices) :
    runCalls calls map = calls.map MultiproofCall.alone := by
  induction calls generalizing map with
  | nil => rfl
  | cons call rest ih =>
      rw [List.map_cons, List.pairwise_cons] at ordered
      obtain ⟨later, ordered⟩ := ordered
      have same : (call.run map).map Prod.fst = call.alone := by
        rcases clean with agree | listed
        · exact root_of_agree agree
        · exact root_of_listed (listed call List.mem_cons_self) map
      have restListed (listed : ∀ call' ∈ call :: rest, 1 ∈ call'.indices) : ∀ call' ∈ rest, 1 ∈ call'.indices :=
        fun call' member => listed call' (List.mem_cons_of_mem call member)
      rw [runCalls, List.map_cons, ← same]
      cases outcome : call.run map with
      | error failure =>
          show .error failure :: runCalls rest map = .error failure :: _
          rw [ih ordered (clean.imp_right restListed)]
      | ok result =>
          obtain ⟨root, next⟩ := result
          show .ok root :: runCalls rest next = .ok root :: _
          rw [ih ordered]
          by_cases reaches : ∃ index ∈ call.indices, 1 ≤ index
          · right
            intro call' member
            exact later call'.indices (List.mem_map_of_mem member) reaches
          · rcases clean with agree | listed
            · exact .inl (agree_of_zeros agree reaches outcome)
            · exact .inr (restListed listed)

/-- A call with one leaf too many is refused, whatever its indices are. -/
def MultiproofCall.refused (indices : List ℕ) : MultiproofCall B :=
  ⟨[], zero :: indices.map fun _ => zero, indices⟩

theorem runCalls_refused (indices : List ℕ) (calls : List (MultiproofCall B)) (map : HashMap B) :
    runCalls (.refused indices :: calls) map = .error .invalidProof :: runCalls calls map := by
  obtain ⟨helpers, built, _⟩ := getHelperIndices_ok indices
  have outcome : (MultiproofCall.refused indices : MultiproofCall B).run map = .error .invalidProof :=
    calculateMultiMerkleRoot_refused map built fun counts => by simp [MultiproofCall.refused] at counts
  rw [runCalls, outcome]

/-- When all calls of some shapes have their own outcomes, each call of one of the shapes has it. -/
theorem outcome_of_all {shapes : List (List ℕ)} {map : HashMap B}
    (all : ∀ calls : List (MultiproofCall B), calls.map MultiproofCall.indices = shapes →
      runCalls calls map = calls.map MultiproofCall.alone)
    {call : MultiproofCall B} (shaped : call.indices ∈ shapes) : (call.run map).map Prod.fst = call.alone := by
  induction shapes with
  | nil => exact absurd shaped List.not_mem_nil
  | cons shape shapes ih =>
      by_cases head : call.indices = shape
      · have whole := all (call :: shapes.map .refused) (by simp [head, MultiproofCall.refused, Function.comp_def])
        rw [runCalls, List.map_cons] at whole
        cases outcome : call.run map with
        | error failure =>
            rw [outcome] at whole
            exact (List.cons.inj whole).1
        | ok result =>
            rw [outcome] at whole
            exact (List.cons.inj whole).1
      · apply ih _ ((List.mem_cons.mp shaped).resolve_left head)
        intro calls shapes_eq
        have whole := all (.refused shape :: calls) (by simp [shapes_eq, MultiproofCall.refused])
        rw [runCalls_refused, List.map_cons] at whole
        exact (List.cons.inj whole).2

/-- Two maps have the same keys and different values. -/
def Apart (first second : HashMap B) : Prop :=
  ∀ k, first.flag k = second.flag k ∧ (first.flag k = true → first.value k ≠ second.value k)

omit [Bytes32 B] in
theorem Apart.guard {first second : HashMap B} (apart : Apart first second) (k : ℕ) :
    canHash first k = canHash second k := by
  rw [canHash, canHash, HashMap.contains, HashMap.contains, HashMap.contains, HashMap.contains,
    HashMap.contains, HashMap.contains, (apart k).1, (apart (k ^^^ 1)).1, (apart (k / 2)).1]

/-- Different children have different parents. -/
theorem Apart.hash [CollisionFree B] {first second : HashMap B} {k : ℕ} (apart : Apart first second)
    (can : canHash first k = true) : Apart (hashPair first k) (hashPair second k) := by
  intro j
  rw [hashPair_flag, hashPair_flag, hashPair_value, hashPair_value]
  by_cases new : j = k / 2
  · subst new
    simp only [Function.update_self, true_and, forall_const]
    intro same
    exact (apart _).2 (children_set can).1 (CollisionFree.sha256_injective same).1
  · simp only [Function.update_of_ne new]
    exact apart j

/-- Constant calls with different strings have different roots. -/
theorem constant_roots [CollisionFree B] {a b : B} (different : a ≠ b) {indices : List ℕ}
    (reaches : ∃ index ∈ indices, 1 ≤ index) {helpers : List ℕ} (built : getHelperIndices indices = .ok helpers)
    (completes : Completes helpers indices) :
    ∃ first second, (MultiproofCall.constant a helpers indices).run .empty = .ok (first.value 1, first) ∧
      (MultiproofCall.constant b helpers indices).run .empty = .ok (second.value 1, second) ∧
      first.flag 1 = true ∧ second.flag 1 = true ∧ first.value 1 ≠ second.value 1 := by
  have leafCount (c : B) : (indices.map fun _ => c).length = indices.length := List.length_map _
  have proofCount (c : B) : (helpers.map fun _ => c).length = helpers.length := List.length_map _
  obtain ⟨first, ran, computed⟩ := calculateMultiMerkleRoot_of_lengths .empty built (leafCount a) (proofCount a)
  obtain ⟨second, ran', computed'⟩ := calculateMultiMerkleRoot_of_lengths .empty built (leafCount b) (proofCount b)
  have start : Apart (supply helpers (helpers.map fun _ => a) indices (indices.map fun _ => a) .empty)
      (supply helpers (helpers.map fun _ => b) indices (indices.map fun _ => b) .empty) := by
    intro k
    constructor
    · rw [Bool.eq_iff_iff, supply_flag (leafCount a) (proofCount a), supply_flag (leafCount b) (proofCount b)]
    · intro set
      rw [supply_flag (leafCount a) (proofCount a)] at set
      have present := set.resolve_left (by simp [HashMap.empty])
      rw [supply_labels (fun _ => a) present, supply_labels (fun _ => b) present]
      exact different
  obtain ⟨other, runs, apart⟩ := hashKeys_simulation (fun _ _ k apart => apart.guard k)
    (fun _ _ _ apart can => apart.hash can) start ran
  obtain rfl : second = other := Except.ok.inj (ran'.symm.trans runs)
  obtain ⟨index, listed, positive⟩ := reaches
  have root := path_set completes (leafCount a) (proofCount a) ran le_rfl ⟨index, listed, root_above positive⟩
  exact ⟨first, second, computed, computed', root, (apart 1).1 ▸ root, (apart 1).2 root⟩

/-- A call that does not list the root returns the root that the map already holds. -/
theorem stale_root {call : MultiproofCall B} {map final : HashMap B} {root : B} (set : map.flag 1 = true)
    (unlisted : 1 ∉ call.indices) (ran : call.run map = .ok (root, final)) : root = map.value 1 := by
  obtain ⟨helpers, built, completes⟩ := getHelperIndices_ok call.indices
  obtain ⟨leafCount, proofCount, hashed, rfl⟩ := (calculateMultiMerkleRoot_ok built).mp ran
  have noHelper : 1 ∉ helpers := by
    intro helper
    exact absurd ((completes 1).mp helper).1 (by decide)
  rw [((hashKeys_extends hashed).kept 1 ((supply_flag leafCount proofCount).mpr (.inl set))).2]
  exact supply_value_of_notMem noHelper unlisted

/-- After a first call that reaches the root, the outcomes of a later list show whether it lists the root. -/
theorem listsRoot_of_all [CollisionFree B] {earlier later : List ℕ} {shapes : List (List ℕ)}
    (all : ∀ calls : List (MultiproofCall B), calls.map MultiproofCall.indices = earlier :: shapes →
      HistoryIndependent calls) (member : later ∈ shapes) : ListsRoot earlier later := by
  intro reaches
  by_contra unlisted
  obtain ⟨helpers, built, completes⟩ := getHelperIndices_ok earlier
  obtain ⟨helpers', built', _⟩ := getHelperIndices_ok later
  have different : (word 0 : B) ≠ word 1 := fun same => absurd (CollisionFree.word_injective same) (by decide)
  obtain ⟨first, second, ran, ran', set, set', apart⟩ := constant_roots different reaches built completes
  -- Whatever the first call has left behind, the later call must return its own root.
  have outcome (c : B) (map : HashMap B) (root : B) (set : map.flag 1 = true)
      (ran : (MultiproofCall.constant c helpers earlier).run .empty = .ok (root, map)) :
      .ok (map.value 1) = (MultiproofCall.constant zero helpers' later : MultiproofCall B).alone := by
    have rest : ∀ calls : List (MultiproofCall B), calls.map MultiproofCall.indices = shapes →
        runCalls calls map = calls.map MultiproofCall.alone := by
      intro calls shapes_eq
      have whole := all (.constant c helpers earlier :: calls) (by simp [shapes_eq, MultiproofCall.constant])
      rw [HistoryIndependent, runCalls, ran, List.map_cons] at whole
      exact (List.cons.inj whole).2
    have leafCount : (later.map fun _ => (zero : B)).length = later.length := List.length_map _
    have proofCount : (helpers'.map fun _ => (zero : B)).length = helpers'.length := List.length_map _
    obtain ⟨final, _, computed⟩ := calculateMultiMerkleRoot_of_lengths map built' leafCount proofCount
    have listed : (MultiproofCall.constant zero helpers' later : MultiproofCall B).indices ∈ shapes := member
    have own := outcome_of_all rest listed
    have ran : (MultiproofCall.constant zero helpers' later).run map = .ok (final.value 1, final) := computed
    have stale := stale_root set unlisted ran
    rw [← own, ← stale]
    exact (congrArg (Except.map Prod.fst) computed).symm
  have same := (outcome _ first _ set ran).trans (outcome _ second _ set' ran').symm
  exact apart (Except.ok.inj same)

/-- The calls of some shapes are independent of their history, whatever their leaves and their proofs are,
exactly when after each list with a node of the tree all later lists contain the root. -/
theorem historyIndependent_iff [CollisionFree B] (shapes : List (List ℕ)) :
    (∀ calls : List (MultiproofCall B), calls.map MultiproofCall.indices = shapes →
      HistoryIndependent calls) ↔ shapes.Pairwise ListsRoot := by
  constructor
  · intro all
    induction shapes with
    | nil => exact .nil
    | cons shape shapes ih =>
        rw [List.pairwise_cons]
        constructor
        · intro later member
          exact listsRoot_of_all all member
        · apply ih
          intro calls shapes_eq
          have whole := all (.refused shape :: calls) (by simp [shapes_eq, MultiproofCall.refused])
          rw [HistoryIndependent, runCalls_refused, List.map_cons] at whole
          exact (List.cons.inj whole).2
  · rintro ordered calls rfl
    exact runCalls_of_pairwise ordered (.inl fun _ _ => ⟨rfl, rfl⟩)

end Calls

/-- These are the arguments of a fee recipient proof for the proposer, with a branch of zeros. -/
def sampleCall (validatorIndex : Word) : MultiproofCall Term :=
  ⟨List.replicate 13 zero, [word (toLittleEndian validatorIndex), word (leftAligned 0xaa)], [9, 6433]⟩

/-- These calls list the root, the second one together with another node. -/
def rootCalls : List (MultiproofCall Term) := [⟨[], [word 3], [1]⟩, ⟨[zero, zero, zero], [word 4, word 5], [1, 10]⟩]

/-- The calls that list the root have their own outcomes after a fee recipient proof. -/
theorem root_calls_independent : HistoryIndependent (sampleCall 5 :: rootCalls) := by
  apply (historyIndependent_iff [[9, 6433], [1], [1, 10]]).mpr
  · simp [ListsRoot]
  · rfl

/-- The second call of a transaction returns the root of the first one. -/
theorem second_call_stale : ¬ HistoryIndependent [sampleCall 5, sampleCall 7] := by
  intro independent
  have outcomes : (sampleCall 5).alone = (sampleCall 7).alone := by
    have first : runCalls [sampleCall 5, sampleCall 7] .empty = [(sampleCall 5).alone, (sampleCall 5).alone] := by
      decide +kernel
    have own : [(sampleCall 5).alone, (sampleCall 5).alone] = [(sampleCall 5).alone, (sampleCall 7).alone] :=
      first.symm.trans independent
    exact (List.cons.inj (List.cons.inj own).2).1
  exact absurd outcomes (by decide +kernel)

end SmoothlyPool.Merkle
