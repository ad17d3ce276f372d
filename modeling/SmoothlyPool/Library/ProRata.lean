import Mathlib.Algebra.Order.Field.Basic
import Mathlib.Algebra.Order.Ring.Rat
import Mathlib.Data.Rat.Cast.Order
import Mathlib.Tactic

namespace ProRata

/-- This is the claim of one weight: its part of the weights that are left, at the scale, of the pot that is left.
Both quotients are rounded down. -/
def payout (scale weight left pot : ℕ) : ℕ := weight * scale / left * pot / scale

/-- These are the claims of the weights in their order. -/
def payouts (scale : ℕ) : ℕ → ℕ → List ℕ → List ℕ
  | _, _, [] => []
  | left, pot, weight :: rest =>
      payout scale weight left pot ::
        payouts scale (left - weight) (pot - payout scale weight left pot) rest

variable {scale weight left pot : ℕ}

theorem length_payouts (scale left pot : ℕ) (weights : List ℕ) :
    (payouts scale left pot weights).length = weights.length := by
  induction weights generalizing left pot with
  | nil => rfl
  | cons weight rest ih => rw [payouts, List.length_cons, List.length_cons, ih]

section Drain

/-- The scaled part of a weight is at most the scale. -/
theorem part_le (covered : weight ≤ left) : weight * scale / left ≤ scale :=
  Nat.div_le_of_le_mul (Nat.mul_le_mul_right scale covered)

/-- A claim stays inside the pot. -/
theorem payout_le (covered : weight ≤ left) : payout scale weight left pot ≤ pot :=
  Nat.div_le_of_le_mul (Nat.mul_le_mul_right pot (part_le covered))

/-- The claim of the last weight is the whole pot. -/
theorem payout_last (positive : 0 < scale) (present : 0 < left) : payout scale left left pot = pot := by
  rw [payout, Nat.mul_div_cancel_left scale present, Nat.mul_div_cancel_left pot positive]

/-- A claim with a later claim behind it leaves something in the pot. -/
theorem payout_lt (positive : 0 < scale) (later : weight < left) (funded : 0 < pot) :
    payout scale weight left pot < pot := by
  have part : weight * scale / left < scale :=
    Nat.div_lt_of_lt_mul (Nat.mul_lt_mul_of_pos_right later positive)
  exact Nat.div_lt_of_lt_mul (Nat.mul_lt_mul_of_pos_right part funded)

/-- The weights behind the first one fit in what it leaves. -/
theorem covered_rest {rest : List ℕ} (covered : (weight :: rest).sum ≤ left) : rest.sum ≤ left - weight := by
  rw [List.sum_cons] at covered
  omega

/-- Weights that add up to everything that is left drain the pot. -/
theorem sum_payouts (positive : 0 < scale) {weights : List ℕ} (claims : weights ≠ [])
    (present : ∀ weight ∈ weights, 0 < weight) (whole : weights.sum = left) :
    (payouts scale left pot weights).sum = pot := by
  induction weights generalizing left pot with
  | nil => exact absurd rfl claims
  | cons weight rest ih =>
      rw [List.sum_cons] at whole
      rw [payouts, List.sum_cons]
      have inside : payout scale weight left pot ≤ pot := payout_le (by omega)
      by_cases last : rest = []
      · subst last
        rw [List.sum_nil, Nat.add_zero] at whole
        subst whole
        rw [payouts, List.sum_nil, payout_last positive (present weight List.mem_cons_self), Nat.add_zero]
      · have others : ∀ other ∈ rest, 0 < other := fun other member => present other (.tail weight member)
        rw [ih last others (by omega)]
        omega

end Drain

section Fairness

/-- This is the most that the two roundings of a claim on the pot take away. -/
def slack (scale pot : ℕ) : ℚ := (pot : ℚ) / scale + 1

theorem slack_pos (scale pot : ℕ) : 0 < slack scale pot := by
  unfold slack
  positivity

theorem slack_le (scale : ℕ) {smaller : ℕ} (less : smaller ≤ pot) : slack scale smaller ≤ slack scale pot := by
  unfold slack
  gcongr

/-- A quotient is less than one above its rounding. -/
theorem lt_div_add_one (dividend : ℕ) {divisor : ℕ} (positive : 0 < divisor) :
    (dividend : ℚ) / divisor < (dividend / divisor : ℕ) + 1 := by
  have bound : (dividend : ℚ) < divisor * ((dividend / divisor : ℕ) + 1) := by
    exact_mod_cast Nat.lt_mul_div_succ dividend positive
  rwa [div_lt_iff₀ (by exact_mod_cast positive), mul_comm]

/-- A claim is at most the exact part. -/
theorem payout_le_exact (scale weight left pot : ℕ) (positive : 0 < scale) :
    (payout scale weight left pot : ℚ) ≤ weight * pot / left := by
  have scaled : (0 : ℚ) < scale := by exact_mod_cast positive
  have part : ((weight * scale / left : ℕ) : ℚ) ≤ weight * scale / left := by
    exact_mod_cast Nat.cast_div_le (α := ℚ)
  calc (payout scale weight left pot : ℚ)
    _ ≤ ((weight * scale / left * pot : ℕ) : ℚ) / scale := Nat.cast_div_le
    _ = ((weight * scale / left : ℕ) : ℚ) * pot / scale := by push_cast; rfl
    _ ≤ (weight * scale / left) * pot / scale := by gcongr
    _ = weight * pot / left := by field_simp

/-- A claim misses less than the slack of the exact part. -/
theorem exact_lt_payout (positive : 0 < scale) (present : 0 < left) :
    (weight : ℚ) * pot / left - slack scale pot < payout scale weight left pot := by
  have scaled : (0 : ℚ) < scale := by exact_mod_cast positive
  have whole : (0 : ℚ) < left := by exact_mod_cast present
  have part : (weight : ℚ) * scale / left ≤ (weight * scale / left : ℕ) + 1 := by
    have bound := (lt_div_add_one (weight * scale) present).le
    push_cast at bound ⊢
    exact bound
  have rounded : ((weight * scale / left * pot : ℕ) : ℚ) / scale < payout scale weight left pot + 1 :=
    lt_div_add_one _ positive
  have spread : (weight : ℚ) * pot / left ≤ ((weight * scale / left * pot : ℕ) : ℚ) / scale + pot / scale :=
    calc (weight : ℚ) * pot / left
      _ = weight * scale / left * pot / scale := by field_simp
      _ ≤ ((weight * scale / left : ℕ) + 1) * pot / scale := by gcongr
      _ = ((weight * scale / left * pot : ℕ) : ℚ) / scale + pot / scale := by
          push_cast
          ring
  unfold slack
  linarith

/-- A claim leaves at least its ratio of the pot to the other claims. -/
theorem ratio_le (positive : 0 < scale) (later : weight < left) :
    (pot : ℚ) / left ≤ (pot - payout scale weight left pot : ℕ) / (left - weight : ℕ) := by
  have behind : (0 : ℚ) < left - weight := sub_pos.mpr (by exact_mod_cast later)
  have whole : (0 : ℚ) < left := by exact_mod_cast Nat.zero_lt_of_lt later
  have taken : (payout scale weight left pot : ℚ) ≤ weight * pot / left :=
    payout_le_exact scale weight left pot positive
  rw [Nat.cast_sub (payout_le later.le), Nat.cast_sub later.le, le_div_iff₀ behind]
  calc (pot : ℚ) / left * (left - weight)
    _ = pot - weight * pot / left := by field_simp
    _ ≤ pot - payout scale weight left pot := by linarith

/-- The ratio grows by less than the slack of one claim, spread over what is left. -/
theorem ratio_lt (positive : 0 < scale) (later : weight < left) :
    ((pot - payout scale weight left pot : ℕ) : ℚ) / (left - weight : ℕ) <
      pot / left + slack scale pot / (left - weight : ℕ) := by
  have behind : (0 : ℚ) < left - weight := sub_pos.mpr (by exact_mod_cast later)
  have whole : (0 : ℚ) < left := by exact_mod_cast Nat.zero_lt_of_lt later
  have taken : (weight : ℚ) * pot / left - slack scale pot < payout scale weight left pot :=
    exact_lt_payout positive (Nat.zero_lt_of_lt later)
  rw [Nat.cast_sub (payout_le later.le), Nat.cast_sub later.le, div_lt_iff₀ behind]
  calc (pot : ℚ) - payout scale weight left pot
    _ < pot - weight * pot / left + slack scale pot := by linarith
    _ = (pot / left + slack scale pot / (left - weight)) * (left - weight) := by field_simp

variable {weights : List ℕ}

/-- A later weight is inside what the first one leaves. -/
theorem later_lt {rest : List ℕ} {index other : ℕ} (covered : (weight :: rest).sum ≤ left)
    (present : ∀ member ∈ rest, 0 < member) (listed : rest[index]? = some other) :
    weight < left ∧ other ≤ left - weight := by
  have member : other ∈ rest := List.mem_of_getElem? listed
  have inside : other ≤ rest.sum := List.single_le_sum (fun _ _ => Nat.zero_le _) other member
  have positive := present other member
  rw [List.sum_cons] at covered
  omega

/-- A claim misses less than one slack of its exact part of the whole pot, however late it comes. -/
theorem exact_lt_payouts (positive : 0 < scale) (covered : weights.sum ≤ left)
    (present : ∀ weight ∈ weights, 0 < weight) {index amount : ℕ} (listed : weights[index]? = some weight)
    (paid : (payouts scale left pot weights)[index]? = some amount) :
    (weight : ℚ) * pot / left - slack scale pot < amount := by
  induction weights generalizing left pot index with
  | nil => exact absurd listed (by simp)
  | cons first rest ih =>
      have others : ∀ other ∈ rest, 0 < other := fun other member => present other (.tail first member)
      cases index with
      | zero =>
          obtain rfl : first = weight := by simpa using listed
          obtain rfl : payout scale first left pot = amount := by simpa [payouts] using paid
          rw [List.sum_cons] at covered
          exact exact_lt_payout positive ((present first List.mem_cons_self).trans_le (by omega))
      | succ index =>
          rw [List.getElem?_cons_succ] at listed
          rw [payouts, List.getElem?_cons_succ] at paid
          obtain ⟨later, _⟩ := later_lt covered others listed
          have smaller := slack_le scale (Nat.sub_le pot (payout scale first left pot))
          calc (weight : ℚ) * pot / left - slack scale pot
            _ = weight * (pot / left) - slack scale pot := by rw [mul_div_assoc]
            _ ≤ weight * ((pot - payout scale first left pot : ℕ) / (left - first : ℕ)) -
                slack scale (pot - payout scale first left pot) :=
                  sub_le_sub (mul_le_mul_of_nonneg_left (ratio_le positive later) weight.cast_nonneg) smaller
            _ = weight * (pot - payout scale first left pot : ℕ) / (left - first : ℕ) -
                slack scale (pot - payout scale first left pot) := by rw [mul_div_assoc]
            _ < amount := ih (covered_rest covered) others listed paid

/-- A claim exceeds its exact part of the whole pot by at most one slack for each earlier claim. -/
theorem payouts_le_exact (positive : 0 < scale) (covered : weights.sum ≤ left)
    (present : ∀ weight ∈ weights, 0 < weight) {index amount : ℕ} (listed : weights[index]? = some weight)
    (paid : (payouts scale left pot weights)[index]? = some amount) :
    (amount : ℚ) ≤ weight * pot / left + index * slack scale pot := by
  induction weights generalizing left pot index with
  | nil => exact absurd listed (by simp)
  | cons first rest ih =>
      have others : ∀ other ∈ rest, 0 < other := fun other member => present other (.tail first member)
      cases index with
      | zero =>
          obtain rfl : first = weight := by simpa using listed
          obtain rfl : payout scale first left pot = amount := by simpa [payouts] using paid
          simpa using payout_le_exact scale first left pot positive
      | succ index =>
          rw [List.getElem?_cons_succ] at listed
          rw [payouts, List.getElem?_cons_succ] at paid
          obtain ⟨later, inside⟩ := later_lt covered others listed
          have behind : (0 : ℚ) < (left - first : ℕ) := by exact_mod_cast Nat.sub_pos_of_lt later
          have fits : (weight : ℚ) ≤ (left - first : ℕ) := by exact_mod_cast inside
          have loose := slack_pos scale pot
          have spread : (weight : ℚ) * (slack scale pot / (left - first : ℕ)) ≤ slack scale pot := by
            rw [mul_div_assoc', div_le_iff₀ behind, mul_comm]
            gcongr
          calc (amount : ℚ)
            _ ≤ weight * (pot - payout scale first left pot : ℕ) / (left - first : ℕ) +
                index * slack scale (pot - payout scale first left pot) :=
                  ih (covered_rest covered) others listed paid
            _ = weight * ((pot - payout scale first left pot : ℕ) / (left - first : ℕ)) +
                index * slack scale (pot - payout scale first left pot) := by rw [mul_div_assoc]
            _ ≤ weight * (pot / left + slack scale pot / (left - first : ℕ)) + index * slack scale pot := by
                  gcongr
                  · exact (ratio_lt positive later).le
                  · exact slack_le scale (Nat.sub_le _ _)
            _ = weight * pot / left + weight * (slack scale pot / (left - first : ℕ)) +
                index * slack scale pot := by ring
            _ ≤ weight * pot / left + slack scale pot + index * slack scale pot := by gcongr
            _ = weight * pot / left + (index + 1 : ℕ) * slack scale pot := by
                  push_cast
                  ring

/-- The place in the queue changes a claim by at most one slack for each claim. -/
theorem payouts_distance_le {others : List ℕ} (positive : 0 < scale) (covered : weights.sum ≤ left)
    (present : ∀ weight ∈ weights, 0 < weight) (coveredOther : others.sum ≤ left)
    (presentOther : ∀ weight ∈ others, 0 < weight) (same : others.length = weights.length)
    {index place amount other : ℕ} (listed : weights[index]? = some weight)
    (listedOther : others[place]? = some weight)
    (paid : (payouts scale left pot weights)[index]? = some amount)
    (paidOther : (payouts scale left pot others)[place]? = some other) :
    |(amount : ℚ) - other| ≤ weights.length * slack scale pot := by
  have loose := slack_pos scale pot
  have early : index + 1 ≤ weights.length := (List.getElem?_eq_some_iff.mp listed).1
  have earlyOther : place + 1 ≤ weights.length := same ▸ (List.getElem?_eq_some_iff.mp listedOther).1
  have reach : ((index : ℚ) + 1) * slack scale pot ≤ weights.length * slack scale pot := by
    gcongr
    exact_mod_cast early
  have reachOther : ((place : ℚ) + 1) * slack scale pot ≤ weights.length * slack scale pot := by
    gcongr
    exact_mod_cast earlyOther
  have below := exact_lt_payouts positive covered present listed paid
  have above := payouts_le_exact positive covered present listed paid
  have belowOther := exact_lt_payouts positive coveredOther presentOther listedOther paidOther
  have aboveOther := payouts_le_exact positive coveredOther presentOther listedOther paidOther
  rw [abs_le]
  constructor <;> linarith

end Fairness

section Rates

/-- Weights may leave and the pot may grow, but what stands for one weight does not shrink.
The ratios of the pots to the weights are compared by their cross products. -/
structure Keeps (left pot later rest : ℕ) : Prop where
  leaves : later ≤ left
  rate : pot * later ≤ rest * left

theorem Keeps.refl (left pot : ℕ) : Keeps left pot left pot := ⟨le_rfl, le_rfl⟩

/-- The cross products are chained through the weights in the middle. -/
theorem Keeps.trans {middle between later rest : ℕ} (first : Keeps left pot middle between)
    (second : Keeps middle between later rest) : Keeps left pot later rest := by
  refine ⟨second.leaves.trans first.leaves, ?_⟩
  rcases Nat.eq_zero_or_pos middle with gone | present
  · rw [Nat.le_zero.mp (second.leaves.trans gone.le), Nat.mul_zero]
    exact Nat.zero_le _
  · apply Nat.le_of_mul_le_mul_right _ present
    calc pot * later * middle
      _ = pot * middle * later := Nat.mul_right_comm ..
      _ ≤ between * left * later := Nat.mul_le_mul_right _ first.rate
      _ = between * later * left := Nat.mul_right_comm ..
      _ ≤ rest * middle * left := Nat.mul_le_mul_right _ second.rate
      _ = rest * left * middle := Nat.mul_right_comm ..

/-- A weight that leaves unpaid raises the rate of the others. -/
theorem Keeps.leave (left pot weight : ℕ) : Keeps left pot (left - weight) pot :=
  ⟨Nat.sub_le _ _, Nat.mul_le_mul_left _ (Nat.sub_le _ _)⟩

theorem Keeps.grow {rest : ℕ} (left : ℕ) (more : pot ≤ rest) : Keeps left pot left rest :=
  ⟨le_rfl, Nat.mul_le_mul_right _ more⟩

/-- Both roundings of a claim favour the others. -/
theorem payout_mul_le (scale weight left pot : ℕ) : payout scale weight left pot * left ≤ weight * pot := by
  rcases Nat.eq_zero_or_pos scale with none | positive
  · subst none
    simp [payout]
  · apply Nat.le_of_mul_le_mul_right _ positive
    calc payout scale weight left pot * left * scale
      _ = payout scale weight left pot * scale * left := Nat.mul_right_comm ..
      _ ≤ weight * scale / left * pot * left := Nat.mul_le_mul_right _ (Nat.div_mul_le_self _ _)
      _ = weight * scale / left * left * pot := Nat.mul_right_comm ..
      _ ≤ weight * scale * pot := Nat.mul_le_mul_right _ (Nat.div_mul_le_self _ _)
      _ = weight * pot * scale := Nat.mul_right_comm ..

/-- A claim leaves the rate of the others at least where it was. -/
theorem Keeps.claim (scale weight left pot : ℕ) :
    Keeps left pot (left - weight) (pot - payout scale weight left pot) := by
  refine ⟨Nat.sub_le _ _, ?_⟩
  rw [Nat.mul_sub, Nat.sub_mul]
  have taken := payout_mul_le scale weight left pot
  rw [Nat.mul_comm weight] at taken
  exact Nat.sub_le_sub_left taken _

/-- A weight that waits misses at most one slack of what it stood for. -/
theorem Keeps.lt_payout {later rest : ℕ} (keeps : Keeps left pot later rest) (positive : 0 < scale)
    (present : 0 < later) (weight : ℕ) :
    (weight : ℚ) * pot / left - slack scale rest < payout scale weight later rest := by
  have whole : (0 : ℚ) < left := by exact_mod_cast present.trans_le keeps.leaves
  have behind : (0 : ℚ) < later := by exact_mod_cast present
  have risen : (pot : ℚ) / left ≤ rest / later := by
    rw [div_le_div_iff₀ whole behind]
    exact_mod_cast keeps.rate
  calc (weight : ℚ) * pot / left - slack scale rest
    _ = weight * (pot / left) - slack scale rest := by rw [mul_div_assoc]
    _ ≤ weight * (rest / later) - slack scale rest := by gcongr
    _ = weight * rest / later - slack scale rest := by rw [mul_div_assoc]
    _ < payout scale weight later rest := exact_lt_payout positive present

end Rates

end ProRata
