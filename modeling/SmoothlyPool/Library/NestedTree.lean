import SmoothlyPool.Library.BalancedTree
import SmoothlyPool.Library.GIndex

open GIndex

/-- A nested tree is one chunk, or a balanced tree of `2 ^ depth` nested trees. -/
inductive NestedTree (B : Type) where
  | chunk (content : B)
  | parts (depth : ℕ) (part : ℕ → NestedTree B)

namespace NestedTree

variable {B : Type}

/-- A path gives the part at its end together with the generalized index of this part. -/
def locate : NestedTree B → List ℕ → Option (ℕ × NestedTree B)
  | tree, [] => some (1, tree)
  | chunk _, _ :: _ => none
  | parts depth part, i :: path =>
      if i < 2 ^ depth then (locate (part i) path).map fun (k, tree) => (compose (2 ^ depth + i) k, tree) else none

theorem locate_nil (tree : NestedTree B) : tree.locate [] = some (1, tree) := by
  cases tree <;> rfl

theorem locate_cons {depth i k : ℕ} {part : ℕ → NestedTree B} {path : List ℕ} {tree : NestedTree B} :
    (parts depth part).locate (i :: path) = some (k, tree) ↔
      i < 2 ^ depth ∧ ∃ inner, (part i).locate path = some (inner, tree) ∧ compose (2 ^ depth + i) inner = k := by
  rw [locate]
  split_ifs with inside
  · simp [inside]
  · simp [inside]

theorem locate_positive {path : List ℕ} {tree found : NestedTree B} {k : ℕ}
    (located : tree.locate path = some (k, found)) : 1 ≤ k := by
  induction path generalizing tree k with
  | nil =>
      rw [locate_nil] at located
      obtain ⟨rfl, _⟩ := Prod.mk.inj (Option.some.inj located)
      exact le_rfl
  | cons i path ih =>
      cases tree with
      | chunk content => cases located
      | parts depth part =>
          obtain ⟨_, inner, _, rfl⟩ := locate_cons.mp located
          exact (Nat.one_le_two_pow.trans (Nat.le_add_right _ i)).trans le_compose

/-- Paths compose like their indices. -/
theorem locate_append {path rest : List ℕ} {tree middle found : NestedTree B} {k l : ℕ}
    (upper : tree.locate path = some (k, middle)) (lower : middle.locate rest = some (l, found)) :
    tree.locate (path ++ rest) = some (compose k l, found) := by
  induction path generalizing tree k with
  | nil =>
      rw [locate_nil] at upper
      obtain ⟨rfl, rfl⟩ := Prod.mk.inj (Option.some.inj upper)
      rw [List.nil_append, lower, one_compose (locate_positive lower)]
  | cons i path ih =>
      cases tree with
      | chunk content => cases upper
      | parts depth part =>
          obtain ⟨inside, inner, below, rfl⟩ := locate_cons.mp upper
          exact locate_cons.mpr ⟨inside, _, ih below, (compose_assoc (locate_positive below)).symm⟩

variable (hash : B → B → B)

def root : NestedTree B → B
  | chunk content => content
  | parts depth part => BalancedTree.root hash depth fun i => (part i).root

/-- The first levels of the labels belong to the balanced tree, and the other ones to its leaves. -/
def label : NestedTree B → ℕ → B
  | chunk content, _ => content
  | parts depth part, k =>
      if k.log2 ≤ depth then BalancedTree.label hash depth (fun i => (part i).root hash) k
      else (part (k / 2 ^ (k.log2 - depth) - 2 ^ depth)).label (2 ^ (k.log2 - depth) + k % 2 ^ (k.log2 - depth))

theorem label_one (tree : NestedTree B) : tree.label hash 1 = tree.root hash := by
  cases tree with
  | chunk content => rfl
  | parts depth part => rw [label, if_pos (by simp [show Nat.log2 1 = 0 by decide]), BalancedTree.label_one, root]

/-- Below a leaf the labels are the labels of the part. -/
theorem label_compose {depth i k : ℕ} {part : ℕ → NestedTree B} (inside : i < 2 ^ depth) (positive : 1 ≤ k) :
    (parts depth part).label hash (compose (2 ^ depth + i) k) = (part i).label hash k := by
  have level : (compose (2 ^ depth + i) k).log2 = depth + k.log2 := by
    rw [log2_compose (Nat.one_le_two_pow.trans (Nat.le_add_right _ i)), BalancedTree.log2_leaf inside]
  by_cases root : k = 1
  · subst root
    rw [compose_one, label, BalancedTree.log2_leaf inside, if_pos le_rfl, BalancedTree.label_leaf depth _ inside,
      label_one]
  · have deep : 1 ≤ k.log2 := (Nat.le_log2 (by omega)).mpr (by omega)
    have low : 2 ^ k.log2 ≤ k := Nat.log2_self_le (by omega)
    rw [label, level, if_neg (by omega), Nat.add_sub_cancel_left, compose_div, Nat.add_sub_cancel_left, compose_mod,
      Nat.add_sub_cancel' low]

/-- Above its leaves a balanced tree hashes its labels. -/
theorem hashed_parts {depth k : ℕ} (part : ℕ → NestedTree B) (positive : 1 ≤ k) (inside : k.log2 < depth) :
    HashedAt hash ((parts depth part).label hash) k := by
  have left : (2 * k).log2 = k.log2 + 1 := Nat.log2_two_mul (by omega)
  have right : (2 * k + 1).log2 = k.log2 + 1 := by
    rw [Nat.log2_def, if_pos (by omega), show (2 * k + 1) / 2 = k by omega]
  rw [HashedAt, label, label, label, left, right, if_pos inside.le, if_pos (Nat.succ_le_of_lt inside),
    if_pos (Nat.succ_le_of_lt inside)]
  exact BalancedTree.label_node depth _ positive inside

/-- The labels of the whole at a located part are the labels of the part. -/
theorem label_locate {path : List ℕ} {tree found : NestedTree B} {k : ℕ}
    (located : tree.locate path = some (k, found)) {j : ℕ} (positive : 1 ≤ j) :
    tree.label hash (compose k j) = found.label hash j := by
  induction path generalizing tree k with
  | nil =>
      rw [locate_nil] at located
      obtain ⟨rfl, rfl⟩ := Prod.mk.inj (Option.some.inj located)
      rw [one_compose positive]
  | cons i path ih =>
      cases tree with
      | chunk content => cases located
      | parts depth part =>
          obtain ⟨inside, inner, below, rfl⟩ := locate_cons.mp located
          have present := locate_positive below
          rw [compose_assoc present, label_compose hash inside (present.trans le_compose), ih below]

/-- A located chunk or root is the label at its index. -/
theorem label_index {path : List ℕ} {tree found : NestedTree B} {k : ℕ}
    (located : tree.locate path = some (k, found)) : tree.label hash k = found.root hash := by
  rw [← label_one, ← label_locate hash located le_rfl, compose_one]

/-- The whole is hashed where its part is hashed. -/
theorem hashed_locate {path : List ℕ} {tree found : NestedTree B} {k : ℕ}
    (located : tree.locate path = some (k, found)) {j : ℕ} (positive : 1 ≤ j)
    (hashed : HashedAt hash (found.label hash) j) : HashedAt hash (tree.label hash) (compose k j) := by
  rw [HashedAt, ← compose_right positive, ← compose_left positive, label_locate hash located positive,
    label_locate hash located (by omega), label_locate hash located (by omega)]
  exact hashed

/-- The whole is hashed above every located part. -/
theorem hashed_above {path : List ℕ} {tree found : NestedTree B} {k : ℕ}
    (located : tree.locate path = some (k, found)) :
    ∀ height, 0 < height → height ≤ k.log2 → HashedAt hash (tree.label hash) (k / 2 ^ height) := by
  induction path generalizing tree k with
  | nil =>
      rw [locate_nil] at located
      obtain ⟨rfl, rfl⟩ := Prod.mk.inj (Option.some.inj located)
      intro height above below
      simp [show Nat.log2 1 = 0 by decide] at below
      omega
  | cons i path ih =>
      cases tree with
      | chunk content => cases located
      | parts depth part =>
          obtain ⟨inside, inner, deeper, rfl⟩ := locate_cons.mp located
          intro height above below
          have present := locate_positive deeper
          have leaf : 1 ≤ 2 ^ depth + i := Nat.one_le_two_pow.trans (Nat.le_add_right _ i)
          rw [log2_compose leaf, BalancedTree.log2_leaf inside] at below
          by_cases low : height ≤ inner.log2
          · have first : (parts depth part).locate [i] = some (2 ^ depth + i, part i) :=
              locate_cons.mpr ⟨inside, 1, locate_nil _, compose_one⟩
            have higher : 1 ≤ inner / 2 ^ height := by
              rw [Nat.one_le_div_iff (Nat.two_pow_pos _)]
              exact (Nat.le_log2 (by omega)).mp low
            rw [compose_div_pow present low]
            exact hashed_locate hash first higher (ih deeper height above low)
          · obtain ⟨more, rfl⟩ := Nat.exists_eq_add_of_le (Nat.le_of_not_le low)
            have higher : 1 ≤ (2 ^ depth + i) / 2 ^ more := by
              rw [Nat.one_le_div_iff (Nat.two_pow_pos _)]
              exact (Nat.pow_le_pow_right (by omega) (by omega)).trans (Nat.le_add_right _ i)
            have shrinks : (2 ^ depth + i) / 2 ^ more < 2 ^ depth := by
              have half : 2 ^ 1 ≤ 2 ^ more := Nat.pow_le_pow_right (by omega) (by omega)
              have enough : 2 ^ depth * 2 ^ 1 ≤ 2 ^ depth * 2 ^ more := Nat.mul_le_mul_left _ half
              rw [Nat.div_lt_iff_lt_mul (Nat.two_pow_pos more)]
              omega
            have level : ((2 ^ depth + i) / 2 ^ more).log2 < depth := (Nat.log2_lt (by omega)).mpr shrinks
            rw [pow_add, ← Nat.div_div_eq_div_mul, compose_div]
            exact hashed_parts hash part higher level

end NestedTree
