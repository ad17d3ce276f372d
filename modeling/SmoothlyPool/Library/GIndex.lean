import Mathlib.Data.Nat.Bits
import Mathlib.Data.Nat.Notation
import Mathlib.Logic.Function.Basic
import Mathlib.Tactic

namespace GIndex

/-- The children of a node `k` are `2 * k` and `2 * k + 1`, so a sibling differs in the last bit. -/
theorem sibling_eq (k : ℕ) : k ^^^ 1 = 2 * (k / 2) + (1 - k % 2) := by
  have half : (k ^^^ 1) / 2 = k / 2 := by rw [Nat.xor_div_two, Nat.xor_zero]
  have bit := @Nat.xor_mod_two_eq_one k 1
  omega

theorem sibling_div_two (k : ℕ) : (k ^^^ 1) / 2 = k / 2 := by
  rw [sibling_eq]
  omega

theorem sibling_sibling (k : ℕ) : k ^^^ 1 ^^^ 1 = k := by
  rw [Nat.xor_assoc, Nat.xor_self, Nat.xor_zero]

theorem two_le_sibling {k : ℕ} : 2 ≤ k ^^^ 1 ↔ 2 ≤ k := by
  rw [sibling_eq]
  omega

/-- Setting the last bit gives the right child of the parent. -/
theorem right_eq (k : ℕ) : k ||| 1 = 2 * (k / 2) + 1 := by
  have half : (k ||| 1) / 2 = k / 2 := by rw [Nat.or_div_two, Nat.or_zero]
  have bit : (k ||| 1) % 2 = 1 := Nat.or_mod_two_eq_one.mpr (.inr rfl)
  omega

theorem left_eq (k : ℕ) : (k ||| 1) ^^^ 1 = 2 * (k / 2) := by
  rw [sibling_eq, right_eq]
  omega

/-- A node and its sibling are the two children of their parent. -/
theorem children_cases (k : ℕ) :
    2 * (k / 2) = k ∧ 2 * (k / 2) + 1 = k ^^^ 1 ∨ 2 * (k / 2) = k ^^^ 1 ∧ 2 * (k / 2) + 1 = k := by
  rw [sibling_eq]
  omega

/-- A node lies above itself and above its descendants. -/
def Above (a k : ℕ) : Prop := ∃ height, k / 2 ^ height = a

theorem above_iff_bounded {a k : ℕ} : Above a k ↔ ∃ height < k + 1, k / 2 ^ height = a := by
  constructor
  · rintro ⟨height, rfl⟩
    by_cases low : height < k + 1
    · exact ⟨height, low, rfl⟩
    · have grows : k < 2 ^ k := Nat.lt_two_pow_self
      have more : 2 ^ k ≤ 2 ^ height := Nat.pow_le_pow_right (by omega) (by omega)
      exact ⟨k, Nat.lt_succ_self k, by rw [Nat.div_eq_of_lt grows, Nat.div_eq_of_lt (grows.trans_le more)]⟩
  · exact fun ⟨height, _, same⟩ => ⟨height, same⟩

instance (a k : ℕ) : Decidable (Above a k) := decidable_of_iff' _ above_iff_bounded

theorem Above.refl (k : ℕ) : Above k k := ⟨0, Nat.div_one k⟩

theorem Above.parent {a k : ℕ} (above : Above a k) : Above (a / 2) k := by
  obtain ⟨height, rfl⟩ := above
  exact ⟨height + 1, by rw [pow_succ, Nat.div_div_eq_div_mul]⟩

theorem Above.of_parent {a k : ℕ} (above : Above a (k / 2)) : Above a k := by
  obtain ⟨height, rfl⟩ := above
  exact ⟨height + 1, by rw [pow_succ', Nat.div_div_eq_div_mul]⟩

theorem Above.le {a k : ℕ} (above : Above a k) : a ≤ k := by
  obtain ⟨height, rfl⟩ := above
  exact Nat.div_le_self k _

theorem Above.trans {a b k : ℕ} (upper : Above a b) (lower : Above b k) : Above a k := by
  obtain ⟨first, rfl⟩ := upper
  obtain ⟨second, rfl⟩ := lower
  exact ⟨second + first, by rw [pow_add, Nat.div_div_eq_div_mul]⟩

/-- Two nodes above a third one lie above one another. -/
theorem Above.total {a b k : ℕ} (first : Above a k) (second : Above b k) : Above a b ∨ Above b a := by
  obtain ⟨m, rfl⟩ := first
  obtain ⟨n, rfl⟩ := second
  rcases Nat.le_total m n with order | order
  · exact .inr ⟨n - m, by rw [Nat.div_div_eq_div_mul, ← pow_add, Nat.add_sub_cancel' order]⟩
  · exact .inl ⟨m - n, by rw [Nat.div_div_eq_div_mul, ← pow_add, Nat.add_sub_cancel' order]⟩

/-- Every node but the last one of a path has its next node on the path. -/
theorem Above.child {a k : ℕ} (above : Above a k) (proper : a ≠ k) :
    ∃ child, child / 2 = a ∧ Above child k := by
  obtain ⟨height, rfl⟩ := above
  cases height with
  | zero => exact absurd (Nat.div_one k) proper
  | succ height => exact ⟨k / 2 ^ height, by rw [pow_succ, Nat.div_div_eq_div_mul], height, rfl⟩

/-- The logarithm of a node is its depth below the root. -/
theorem div_log2 {k : ℕ} (positive : 1 ≤ k) : k / 2 ^ k.log2 = 1 := by
  have low : 2 ^ k.log2 ≤ k := Nat.log2_self_le (by omega)
  have high : k < 2 ^ (k.log2 + 1) := Nat.lt_log2_self
  rw [Nat.div_eq_iff (Nat.two_pow_pos _)]
  rw [pow_succ] at high
  omega

theorem div_eq_one {k height : ℕ} : k / 2 ^ height = 1 ↔ 1 ≤ k ∧ height = k.log2 := by
  constructor
  · intro top
    have positive : k ≠ 0 := by
      rintro rfl
      simp at top
    rw [Nat.div_eq_iff (Nat.two_pow_pos _)] at top
    have depth : k.log2 = height := (Nat.log2_eq_iff positive).mpr (by rw [pow_succ]; omega)
    exact ⟨Nat.one_le_iff_ne_zero.mpr positive, depth.symm⟩
  · rintro ⟨positive, rfl⟩
    exact div_log2 positive

/-- The root lies above every node. -/
theorem root_above {k : ℕ} (positive : 1 ≤ k) : Above 1 k := ⟨k.log2, div_log2 positive⟩

theorem above_iff_parent {x k : ℕ} : Above x k ↔ x = k ∨ Above x (k / 2) := by
  constructor
  · intro above
    by_cases same : x = k
    · exact .inl same
    · obtain ⟨height, rfl⟩ := above
      cases height with
      | zero => exact absurd (Nat.div_one k) same
      | succ height => exact .inr ⟨height, by rw [pow_succ', Nat.div_div_eq_div_mul]⟩
  · rintro (rfl | above)
    · exact .refl x
    · exact above.of_parent

/-- A node and its sibling do not both lie above a node. -/
theorem Above.sibling {k target : ℕ} (above : Above k target) (large : 2 ≤ k) : ¬ Above (k ^^^ 1) target := by
  intro also
  have eq := sibling_eq k
  have half := sibling_div_two k
  rcases above.total also with upper | upper <;> rcases above_iff_parent.mp upper with same | higher
  · omega
  · have bound := higher.le
    omega
  · omega
  · have bound := higher.le
    omega

/-- A bound of the lower node bounds the height of the upper one. -/
theorem Above.height {a k : ℕ} (depth : ℕ) (above : Above a k) (positive : 1 ≤ a) (small : k < 2 ^ depth) :
    ∃ height < depth, k / 2 ^ height = a := by
  obtain ⟨height, rfl⟩ := above
  refine ⟨height, ?_, rfl⟩
  by_contra deep
  have grows : 2 ^ depth ≤ 2 ^ height := Nat.pow_le_pow_right (by omega) (Nat.le_of_not_lt deep)
  rw [Nat.div_eq_of_lt (small.trans_le grows)] at positive
  omega

section Compose

/-- The path of `b` continues below the node `a`, without the leading bit of `b`. -/
def compose (a b : ℕ) : ℕ := a * 2 ^ b.log2 + (b - 2 ^ b.log2)

variable {a b : ℕ}

/-- The bits below the leading one. -/
theorem tail_lt (b : ℕ) : b - 2 ^ b.log2 < 2 ^ b.log2 := by
  have high : b < 2 ^ (b.log2 + 1) := Nat.lt_log2_self
  have room := Nat.two_pow_pos b.log2
  rw [pow_succ] at high
  omega

/-- The upper levels of the composed path are the path of `a`. -/
theorem compose_div : compose a b / 2 ^ b.log2 = a := by
  rw [compose, Nat.mul_comm, Nat.mul_add_div (Nat.two_pow_pos _), Nat.div_eq_of_lt (tail_lt b), Nat.add_zero]

theorem le_compose : a ≤ compose a b := by
  have upper := Nat.div_le_self (compose a b) (2 ^ b.log2)
  rwa [compose_div] at upper

/-- The lower levels are the path of `b`. -/
theorem compose_bit (positive : 1 ≤ b) {i : ℕ} (low : i < b.log2) : compose a b / 2 ^ i % 2 = b / 2 ^ i % 2 := by
  have first : 2 ^ b.log2 ≤ b := Nat.log2_self_le (by omega)
  have even (k : ℕ) : (k * 2 ^ b.log2 + (b - 2 ^ b.log2)) / 2 ^ i % 2 = (b - 2 ^ b.log2) / 2 ^ i % 2 := by
    obtain ⟨more, depth⟩ := Nat.exists_eq_add_of_lt low
    have power : 2 ^ b.log2 = 2 ^ i * (2 * 2 ^ more) := by rw [depth, pow_succ, pow_add]; ring
    rw [show k * 2 ^ b.log2 = 2 ^ i * (2 * (k * 2 ^ more)) by rw [power]; ring,
      Nat.mul_add_div (Nat.two_pow_pos i), Nat.mul_add_mod]
  have self : b = 1 * 2 ^ b.log2 + (b - 2 ^ b.log2) := by omega
  rw [compose, even, ← even 1, ← self]

theorem log2_compose (above : 1 ≤ a) : (compose a b).log2 = a.log2 + b.log2 := by
  have room := Nat.two_pow_pos b.log2
  have low : 2 ^ a.log2 ≤ a := Nat.log2_self_le (by omega)
  have high : a < 2 ^ (a.log2 + 1) := Nat.lt_log2_self
  have least : a * 2 ^ b.log2 ≤ compose a b := Nat.le_add_right _ _
  have most : compose a b < (a + 1) * 2 ^ b.log2 := by
    rw [compose, Nat.succ_mul]
    exact Nat.add_lt_add_left (tail_lt b) _
  have some : compose a b ≠ 0 := ((Nat.mul_pos above room).trans_le least).ne'
  rw [Nat.log2_eq_iff some]
  constructor
  · rw [pow_add]
    exact (Nat.mul_le_mul_right _ low).trans least
  · rw [Nat.add_right_comm, pow_add]
    exact most.trans_le (Nat.mul_le_mul_right _ high)

theorem compose_one : compose a 1 = a := by
  simp [compose, show Nat.log2 1 = 0 by decide]

theorem one_compose (positive : 1 ≤ b) : compose 1 b = b := by
  have low : 2 ^ b.log2 ≤ b := Nat.log2_self_le (by omega)
  rw [compose]
  omega

theorem compose_mod : compose a b % 2 ^ b.log2 = b - 2 ^ b.log2 := by
  rw [compose, Nat.mul_comm, Nat.mul_add_mod, Nat.mod_eq_of_lt (tail_lt b)]

/-- Every node below `a` is composed. -/
theorem exists_compose {k height : ℕ} (same : k / 2 ^ height = a) :
    ∃ b, 1 ≤ b ∧ b.log2 = height ∧ compose a b = k := by
  have room := Nat.two_pow_pos height
  have rest := Nat.mod_lt k room
  have level : (2 ^ height + k % 2 ^ height).log2 = height := by
    rw [Nat.log2_eq_iff (by omega), pow_succ]
    omega
  refine ⟨2 ^ height + k % 2 ^ height, by omega, level, ?_⟩
  rw [compose, level, Nat.add_sub_cancel_left, ← same, Nat.mul_comm]
  exact Nat.div_add_mod k _

/-- The children of a node below `a` lie below `a` too. -/
theorem compose_left (positive : 1 ≤ b) : compose a (2 * b) = 2 * compose a b := by
  rw [compose, compose, Nat.log2_two_mul (by omega), pow_succ]
  have low : 2 ^ b.log2 ≤ b := Nat.log2_self_le (by omega)
  rw [show 2 * b - 2 ^ b.log2 * 2 = 2 * (b - 2 ^ b.log2) by omega]
  ring

theorem compose_right (positive : 1 ≤ b) : compose a (2 * b + 1) = 2 * compose a b + 1 := by
  have depth : (2 * b + 1).log2 = b.log2 + 1 := by
    rw [Nat.log2_def, if_pos (by omega), show (2 * b + 1) / 2 = b by omega]
  have low : 2 ^ b.log2 ≤ b := Nat.log2_self_le (by omega)
  rw [compose, compose, depth, pow_succ, show 2 * b + 1 - 2 ^ b.log2 * 2 = 2 * (b - 2 ^ b.log2) + 1 by omega]
  ring

/-- The nodes above a composed node follow the path of `b` up to the node `a`. -/
theorem compose_div_pow (positive : 1 ≤ b) {height : ℕ} (low : height ≤ b.log2) :
    compose a b / 2 ^ height = compose a (b / 2 ^ height) := by
  induction height with
  | zero => rw [pow_zero, Nat.div_one, Nat.div_one]
  | succ height ih =>
      have upper : b / 2 ^ height / 2 = b / 2 ^ (height + 1) := by rw [Nat.div_div_eq_div_mul, ← pow_succ]
      have present : 1 ≤ b / 2 ^ (height + 1) := by
        rw [Nat.one_le_div_iff (Nat.two_pow_pos _)]
        exact (Nat.le_log2 (by omega)).mp low
      rw [pow_succ, ← Nat.div_div_eq_div_mul, ih (by omega), ← pow_succ, ← upper]
      rw [← upper] at present
      rcases Nat.even_or_odd' (b / 2 ^ height) with ⟨half, even | odd⟩
      · rw [even, compose_left (by omega), show 2 * half / 2 = half by omega]
        omega
      · rw [odd, compose_right (by omega), show (2 * half + 1) / 2 = half by omega]
        omega

theorem compose_assoc {c : ℕ} (above : 1 ≤ b) : compose (compose a b) c = compose a (compose b c) := by
  have first : 2 ^ b.log2 ≤ b := Nat.log2_self_le (by omega)
  have tail : compose b c - 2 ^ (b.log2 + c.log2) = (b - 2 ^ b.log2) * 2 ^ c.log2 + (c - 2 ^ c.log2) := by
    have split : b * 2 ^ c.log2 = (b - 2 ^ b.log2) * 2 ^ c.log2 + 2 ^ (b.log2 + c.log2) := by
      rw [pow_add, ← Nat.add_mul, Nat.sub_add_cancel first]
    rw [compose]
    omega
  rw [compose, compose, compose, log2_compose above, tail, pow_add]
  ring

end Compose

section Trees

variable {B : Type} {hash : B → B → B}

/-- The label of the node is the hash of the labels of its children. -/
def HashedAt (hash : B → B → B) (label : ℕ → B) (k : ℕ) : Prop :=
  label k = hash (label (2 * k)) (label (2 * k + 1))

/-- Two trees that agree at a node and are hashed there agree at its children. -/
theorem HashedAt.child {first second : ℕ → B} {k : ℕ} (injective : Function.Injective2 hash)
    (hashedFirst : HashedAt hash first (k / 2)) (hashedSecond : HashedAt hash second (k / 2))
    (same : first (k / 2) = second (k / 2)) : first k = second k := by
  unfold HashedAt at hashedFirst hashedSecond
  rw [hashedFirst, hashedSecond] at same
  obtain ⟨left, right⟩ := injective same
  rcases Nat.mod_two_eq_zero_or_one k with even | odd
  · rwa [show 2 * (k / 2) = k by omega] at left
  · rwa [show 2 * (k / 2) + 1 = k by omega] at right

/-- The children of a node are ordered by the last bit of one of them. -/
theorem hashedAt_parent {label : ℕ → B} {k : ℕ} : HashedAt hash label (k / 2) ↔
    label (k / 2) = if k % 2 = 1 then hash (label (k ^^^ 1)) (label k) else hash (label k) (label (k ^^^ 1)) := by
  rw [HashedAt]
  rcases children_cases k with ⟨left, right⟩ | ⟨left, right⟩ <;> rw [right, left]
  · rw [if_neg (by omega)]
  · rw [if_pos (by omega)]

/-- The hash of a node and its sibling is the label of their parent exactly when both carry their labels. -/
theorem HashedAt.pair {label : ℕ → B} {k : ℕ} (injective : Function.Injective2 hash)
    (hashed : HashedAt hash label (k / 2)) (self sibling : B) :
    (if k % 2 = 1 then hash sibling self else hash self sibling) = label (k / 2) ↔
      self = label k ∧ sibling = label (k ^^^ 1) := by
  rw [hashedAt_parent.mp hashed]
  split_ifs
  · rw [injective.eq_iff, and_comm]
  · rw [injective.eq_iff]

/-- Two trees with one root agree on a path along which both are hashed. -/
theorem agree_of_hashed {first second : ℕ → B} {target : ℕ} (injective : Function.Injective2 hash)
    (positive : 1 ≤ target) (root : first 1 = second 1)
    (hashedFirst : ∀ k, 1 ≤ k → Above k target → k ≠ target → HashedAt hash first k)
    (hashedSecond : ∀ k, 1 ≤ k → Above k target → k ≠ target → HashedAt hash second k) :
    first target = second target := by
  have walk (height : ℕ) : ∀ k, target / 2 ^ height = k → 1 ≤ k → (first k = second k →
      first target = second target) := by
    induction height with
    | zero =>
        intro k same _ agree
        rwa [← same, pow_zero, Nat.div_one] at agree
    | succ height ih =>
        intro k same present agree
        have up : target / 2 ^ height / 2 = k := by rw [Nat.div_div_eq_div_mul, ← pow_succ, same]
        have above : Above k target := ⟨height + 1, same⟩
        apply ih _ rfl (by omega)
        have proper : k ≠ target := by
          rintro rfl
          have shrinks := Nat.div_le_self k (2 ^ height)
          omega
        apply HashedAt.child injective <;> rw [up]
        · exact hashedFirst k present above proper
        · exact hashedSecond k present above proper
        · exact agree
  obtain ⟨height, top⟩ := root_above positive
  exact walk height 1 top le_rfl root

/-- The labels below a root are read off by splitting hashes. -/
def descend (left right : B → B) (root : B) (k : ℕ) : B :=
  if k ≤ 1 then root
  else if k % 2 = 0 then left (descend left right root (k / 2))
  else right (descend left right root (k / 2))
termination_by k

theorem descend_one (left right : B → B) (root : B) : descend left right root 1 = root := by
  rw [descend, if_pos le_rfl]

theorem descend_left (left right : B → B) (root : B) {k : ℕ} (positive : 1 ≤ k) :
    descend left right root (2 * k) = left (descend left right root k) := by
  rw [descend, if_neg (by omega), if_pos (by omega), show 2 * k / 2 = k by omega]

theorem descend_right (left right : B → B) (root : B) {k : ℕ} (positive : 1 ≤ k) :
    descend left right root (2 * k + 1) = right (descend left right root k) := by
  rw [descend, if_neg (by omega), if_neg (by omega), show (2 * k + 1) / 2 = k by omega]

/-- A hash that can be split everywhere gives a tree that is hashed everywhere. -/
theorem descend_hashed {left right : B → B} (splits : ∀ b, hash (left b) (right b) = b) (root : B)
    {k : ℕ} (positive : 1 ≤ k) : HashedAt hash (descend left right root) k := by
  rw [HashedAt, descend_left left right root positive, descend_right left right root positive, splits]

end Trees

section Glue

variable {B ι : Type} {hash : B → B → B}

/-- The trees have one root, and each is hashed along a path of its own. -/
structure Bundle (hash : B → B → B) (root : B) (path : ι → ℕ) (labels : ι → ℕ → B) : Prop where
  root_eq : ∀ i, labels i 1 = root
  hashed : ∀ i k, 1 ≤ k → Above k (path i) → k ≠ path i → HashedAt hash (labels i) k

/-- A path fixes the label of the root and of the children of the nodes strictly above its end. -/
def Fixes (path k : ℕ) : Prop := k = 1 ∨ 1 ≤ k / 2 ∧ Above (k / 2) path ∧ k / 2 ≠ path

theorem Fixes.of_above {path k : ℕ} (positive : 1 ≤ k) (above : Above k path) : Fixes path k := by
  by_cases root : k = 1
  · exact .inl root
  · have low := above.le
    exact .inr ⟨by omega, above.parent, by omega⟩

/-- What two paths fix is the same for both, because the root fixes their common part. -/
theorem Bundle.agree {root : B} {path : ι → ℕ} {labels : ι → ℕ → B} (bundle : Bundle hash root path labels)
    (injective : Function.Injective2 hash) {i j : ι} {k : ℕ} (first : Fixes (path i) k) (second : Fixes (path j) k) :
    labels i k = labels j k := by
  have meets (i : ι) {a : ℕ} (upper : Above (k / 2) (path i)) (proper : k / 2 ≠ path i) (present : 1 ≤ a)
      (above : Above a (k / 2)) : HashedAt hash (labels i) a := by
    have low := above.le
    have high := upper.le
    exact bundle.hashed i a present (above.trans upper) (by omega)
  rcases first with rfl | ⟨present, above, proper⟩
  · exact (bundle.root_eq i).trans (bundle.root_eq j).symm
  · rcases second with rfl | ⟨_, also, other⟩
    · simp at present
    · apply HashedAt.child injective (meets i above proper present (.refl _)) (meets j also other present (.refl _))
      apply agree_of_hashed injective present ((bundle.root_eq i).trans (bundle.root_eq j).symm)
      · exact fun a positive higher _ => meets i above proper positive higher
      · exact fun a positive higher _ => meets j also other positive higher

/-- Trees that are hashed along their paths glue to one tree that is hashed along all of them. -/
theorem Bundle.glue {root : B} {path : ι → ℕ} {labels : ι → ℕ → B} (bundle : Bundle hash root path labels)
    (injective : Function.Injective2 hash) :
    ∃ label : ℕ → B, (∀ i k, Fixes (path i) k → label k = labels i k) ∧
      ∀ i k, 1 ≤ k → Above k (path i) → k ≠ path i → HashedAt hash label k := by
  classical
  let label (k : ℕ) : B := if fixed : ∃ i, Fixes (path i) k then labels fixed.choose k else root
  have same (i : ι) (k : ℕ) (fixed : Fixes (path i) k) : label k = labels i k := by
    have some : ∃ i, Fixes (path i) k := ⟨i, fixed⟩
    rw [show label k = labels some.choose k from dif_pos some]
    exact bundle.agree injective some.choose_spec fixed
  refine ⟨label, same, ?_⟩
  intro i k present above proper
  have left : Fixes (path i) (2 * k) := .inr (by rw [show 2 * k / 2 = k by omega]; exact ⟨present, above, proper⟩)
  have right : Fixes (path i) (2 * k + 1) :=
    .inr (by rw [show (2 * k + 1) / 2 = k by omega]; exact ⟨present, above, proper⟩)
  rw [HashedAt, same i k (.of_above present above), same i _ left, same i _ right]
  exact bundle.hashed i k present above proper

end Glue

end GIndex
