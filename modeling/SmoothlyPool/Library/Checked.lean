import Mathlib.Algebra.Ring.Nat
import Mathlib.Tactic.Common

namespace Checked

variable {ε α β : Type}

/-- A sequence succeeds exactly when both of its parts succeed. -/
theorem bind_eq_ok {first : Except ε α} {next : α → Except ε β} {result : β} :
    first >>= next = .ok result ↔ ∃ value, first = .ok value ∧ next value = .ok result := by
  cases first with
  | error failure => simp [bind, Except.bind]
  | ok value => simp [bind, Except.bind]

/-- A sequence is computed one part after the other. -/
theorem bind_of_ok {first : Except ε α} {next : α → Except ε β} {value : α} {result : β}
    (step : first = .ok value) (rest : next value = .ok result) : first >>= next = .ok result :=
  bind_eq_ok.mpr ⟨value, step, rest⟩

/-- A successful part hands its value to the rest. -/
@[simp] theorem ok_bind (value : α) (next : α → Except ε β) :
    (Except.ok value >>= next) = next value := rfl

/-- A failed part is the failure of the sequence. -/
@[simp] theorem error_bind (failure : ε) (next : α → Except ε β) :
    ((Except.error failure : Except ε α) >>= next) = .error failure := rfl

/-- Two continuations that agree on the value of the first part give the same sequence. -/
theorem bind_congr_ok {first : Except ε α} {next other : α → Except ε β}
    (agree : ∀ value, first = .ok value → next value = other value) : first >>= next = first >>= other := by
  cases first with
  | error failure => rfl
  | ok value => exact agree value rfl

/-- Renaming the failures of a sequence renames the failures of its parts. -/
theorem mapError_bind {ζ : Type} (rename : ε → ζ) (first : Except ε α) (next : α → Except ε β) :
    (first >>= next).mapError rename = first.mapError rename >>= fun value => (next value).mapError rename := by
  cases first <;> rfl

@[simp] theorem mapError_ok {ζ : Type} (rename : ε → ζ) (value : α) :
    (Except.ok value : Except ε α).mapError rename = .ok value := rfl

/-- This function fails unless the condition holds. -/
def require (condition : Prop) [Decidable condition] (failure : ε) : Except ε Unit :=
  if condition then .ok () else .error failure

@[simp] theorem require_eq_ok {condition : Prop} [Decidable condition] {failure : ε} {result : Unit} :
    require condition failure = .ok result ↔ condition := by
  unfold require
  split_ifs with holds <;> simp [holds]

/-- A condition that holds lets the sequence go on. -/
theorem require_ok {condition : Prop} [Decidable condition] {failure : ε} (holds : condition) :
    require condition failure = .ok () := require_eq_ok.mpr holds

@[simp] theorem mapError_require {ζ : Type} (rename : ε → ζ) {condition : Prop} [Decidable condition] (failure : ε) :
    (require condition failure).mapError rename = require condition (rename failure) := by
  unfold require
  split_ifs <;> rfl

/-- A guarded value is returned exactly when the guard holds. -/
theorem guarded_eq_ok {condition : Prop} [Decidable condition] {failure : ε} {value result : α} :
    (if condition then .ok value else .error failure) = Except.ok result ↔ condition ∧ value = result := by
  split_ifs with holds <;> simp [holds]

/-- A 256-bit addition fails on overflow. -/
def add (overflow : ε) (a b : ℕ) : Except ε ℕ :=
  if a + b < 2 ^ 256 then .ok (a + b) else .error overflow

/-- A checked subtraction fails on underflow. -/
def sub (underflow : ε) (a b : ℕ) : Except ε ℕ :=
  if b ≤ a then .ok (a - b) else .error underflow

/-- A 256-bit multiplication fails on overflow. -/
def mul (overflow : ε) (a b : ℕ) : Except ε ℕ :=
  if a * b < 2 ^ 256 then .ok (a * b) else .error overflow

/-- A checked division fails on a zero divisor. -/
def div (zero : ε) (a b : ℕ) : Except ε ℕ :=
  if b = 0 then .error zero else .ok (a / b)

theorem add_eq_ok {overflow : ε} {a b c : ℕ} :
    add overflow a b = .ok c ↔ a + b < 2 ^ 256 ∧ a + b = c := by
  unfold add
  exact guarded_eq_ok

theorem sub_eq_ok {underflow : ε} {a b c : ℕ} :
    sub underflow a b = .ok c ↔ b ≤ a ∧ a - b = c := by
  unfold sub
  exact guarded_eq_ok

theorem mul_eq_ok {overflow : ε} {a b c : ℕ} :
    mul overflow a b = .ok c ↔ a * b < 2 ^ 256 ∧ a * b = c := by
  unfold mul
  exact guarded_eq_ok

theorem div_eq_ok {zero : ε} {a b c : ℕ} :
    div zero a b = .ok c ↔ b ≠ 0 ∧ a / b = c := by
  unfold div
  split_ifs with fits <;> simp [fits]

theorem add_ok {overflow : ε} {a b : ℕ} (fits : a + b < 2 ^ 256) : add overflow a b = .ok (a + b) :=
  add_eq_ok.mpr ⟨fits, rfl⟩

theorem sub_ok {underflow : ε} {a b : ℕ} (enough : b ≤ a) : sub underflow a b = .ok (a - b) :=
  sub_eq_ok.mpr ⟨enough, rfl⟩

theorem mul_ok {overflow : ε} {a b : ℕ} (fits : a * b < 2 ^ 256) : mul overflow a b = .ok (a * b) :=
  mul_eq_ok.mpr ⟨fits, rfl⟩

theorem div_ok {zero : ε} {a b : ℕ} (nonzero : b ≠ 0) : div zero a b = .ok (a / b) :=
  div_eq_ok.mpr ⟨nonzero, rfl⟩

/-- A property of the value of a computation can be evaluated. -/
instance decidableForallOk (computation : Except ε α) (holds : α → Prop) [∀ value, Decidable (holds value)] :
    Decidable (∀ value, computation = .ok value → holds value) :=
  match computation with
  | .ok value => decidable_of_iff (holds value)
      ⟨fun held _ same => Except.ok.inj same ▸ held, fun all => all value rfl⟩
  | .error _ => .isTrue nofun

/-- A computed success names its value. -/
theorem eq_ok_of_isOk {computation : Except ε α} (succeeds : computation.isOk = true) :
    ∃ value, computation = .ok value := by
  cases computation with
  | error failure => simp [Except.isOk, Except.toBool] at succeeds
  | ok value => exact ⟨value, rfl⟩

end Checked
