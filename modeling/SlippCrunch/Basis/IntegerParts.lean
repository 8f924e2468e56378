import Mathlib.Algebra.Order.BigOperators.Group.List
import Mathlib.Algebra.Order.Floor.Ring
import Mathlib.Order.Interval.Set.UnorderedInterval

/-! Sums of integer parts against integer parts of sums, and comparisons between two shares. -/

namespace IntegerParts

section Sums

variable {K : Type*} [Field K] [LinearOrder K] [FloorRing K]

/-- A nonnegative value splits into its integer part and its fractional part. -/
theorem eq_parts {value : K} (nonnegative : 0 ≤ value) :
    value = (⌊value⌋₊ : K) + Int.fract value := by
  -- For values that are not negative both integer parts are the same.
  rw [natCast_floor_eq_intCast_floor nonnegative, Int.floor_add_fract]

variable [IsStrictOrderedRing K]

/-- A list of nonnegative values splits into its integer parts and its fractional parts. -/
theorem sum_eq_parts {values : List K} (nonnegative : ∀ value ∈ values, 0 ≤ value) :
    values.sum = ((values.map Nat.floor).sum : Nat) + (values.map Int.fract).sum := by
  -- Each value splits by itself, and the two sums are collected apart.
  induction values with
  | nil => simp
  | cons value rest ih =>
    have split := eq_parts (nonnegative value (by simp))
    have tail := ih fun other member => nonnegative other (by simp [member])
    simp only [List.sum_cons, List.map_cons, Nat.cast_add]
    linarith

/-- The fractional parts of any values have a nonnegative sum. -/
theorem sum_fract_nonneg (values : List K) : 0 ≤ (values.map Int.fract).sum := by
  -- No fractional part is negative.
  apply List.sum_nonneg
  intro part member
  obtain ⟨value, _, rfl⟩ := List.mem_map.mp member
  exact Int.fract_nonneg value

/-- Taking integer parts first loses nothing exactly when the fractional parts make up no unit. -/
theorem floor_sum_eq_iff {values : List K} (nonnegative : ∀ value ∈ values, 0 ≤ value) :
    (values.map Nat.floor).sum = ⌊values.sum⌋₊ ↔ (values.map Int.fract).sum < 1 := by
  -- What the integer part of the sum has in excess is that of the fractional parts.
  have excess : ⌊values.sum⌋₊ = ⌊(values.map Int.fract).sum⌋₊ + (values.map Nat.floor).sum := by
    rw [sum_eq_parts nonnegative, add_comm, Nat.floor_add_natCast (sum_fract_nonneg values)]
  rw [excess, ← Nat.floor_eq_zero]
  omega

/-- Only values of at least one contribute an integer part, and none more than the largest. -/
theorem sum_floor_le_countP_mul {values : List K} {bound : Nat}
    (bounded : ∀ value ∈ values, ⌊value⌋₊ ≤ bound) :
    (values.map Nat.floor).sum ≤ values.countP (fun value => decide (1 ≤ value)) * bound := by
  -- A value below one adds nothing to either side.
  induction values with
  | nil => simp
  | cons value rest ih =>
    have tail := ih fun other member => bounded other (by simp [member])
    have head : ⌊value⌋₊ ≤ bound := bounded value (by simp)
    rw [List.map_cons, List.sum_cons, List.countP_cons]
    by_cases whole : 1 ≤ value
    · simp only [whole, decide_true, if_true, Nat.add_mul, Nat.one_mul]
      omega
    · have nothing : ⌊value⌋₊ = 0 := Nat.floor_eq_zero.mpr (not_le.mp whole)
      simp only [whole, decide_false, Bool.false_eq_true, if_false, Nat.add_zero]
      omega

/-- Integer parts add up to something exactly when some value has one. -/
theorem sum_floor_pos_iff {values : List K} :
    0 < (values.map Nat.floor).sum ↔ ∃ value ∈ values, 1 ≤ value := by
  -- A sum of natural numbers is zero only if all of them are.
  rw [Nat.pos_iff_ne_zero, Ne, List.sum_eq_zero_iff]
  simp only [List.mem_map, forall_exists_index, and_imp, forall_apply_eq_imp_iff₂,
    Nat.floor_eq_zero, not_forall, not_lt, exists_prop]

/-- A value passes a share of a sum when its integer part passes it by more than fractions make up. -/
theorem mul_sum_lt_iff {values : List K} (nonnegative : ∀ value ∈ values, 0 ≤ value) {value : K}
    (member : value ∈ values) (share : K) :
    share * values.sum < value ↔
      share * (values.map Int.fract).sum - Int.fract value <
        ⌊value⌋₊ - share * (values.map Nat.floor).sum := by
  -- Both sides are split, and the fractions are collected on the left.
  have whole := eq_parts (nonnegative value member)
  have total := sum_eq_parts nonnegative
  have spread : share * values.sum =
      share * (values.map Nat.floor).sum + share * (values.map Int.fract).sum := by
    rw [total, mul_add]
  constructor
  · intro passes
    linarith
  · intro passes
    linarith

/-- A value has the same share of the sum by its integer part exactly when its fraction does. -/
theorem share_eq_iff {values : List K} (nonnegative : ∀ value ∈ values, 0 ≤ value) {value : K}
    (member : value ∈ values) (positive : 0 < value) :
    (⌊value⌋₊ : K) / (values.map Nat.floor).sum = value / values.sum ↔
      (∃ other ∈ values, 1 ≤ other) ∧
        Int.fract value * (values.map Nat.floor).sum = ⌊value⌋₊ * (values.map Int.fract).sum := by
  have bounded : value ≤ values.sum := List.single_le_sum nonnegative _ member
  have sumPositive : 0 < values.sum := lt_of_lt_of_le positive bounded
  rw [← sum_floor_pos_iff]
  rcases Nat.eq_zero_or_pos (values.map Nat.floor).sum with none | some
  · -- Without integer parts the one share is zero, and the other is not.
    have share : 0 < value / values.sum := div_pos positive sumPositive
    simp [none, share.ne]
  · have somePart : ((values.map Nat.floor).sum : K) ≠ 0 := by exact_mod_cast some.ne'
    rw [div_eq_div_iff somePart sumPositive.ne']
    -- The products of integer parts cancel.
    have cancel : (⌊value⌋₊ : K) * values.sum = value * (values.map Nat.floor).sum ↔
        Int.fract value * (values.map Nat.floor).sum = ⌊value⌋₊ * (values.map Int.fract).sum := by
      have whole := eq_parts (nonnegative value member)
      have left : (⌊value⌋₊ : K) * values.sum =
          ⌊value⌋₊ * (values.map Nat.floor).sum + ⌊value⌋₊ * (values.map Int.fract).sum := by
        rw [sum_eq_parts nonnegative, mul_add]
      have right : value * (values.map Nat.floor).sum =
          ⌊value⌋₊ * (values.map Nat.floor).sum + Int.fract value * (values.map Nat.floor).sum := by
        conv_lhs => rw [whole, add_mul]
      rw [left, right, add_left_cancel_iff, eq_comm]
    rw [cancel]
    exact (and_iff_right some).symm

end Sums

section Shares

variable {K : Type*} [LinearOrder K]

/-- A value compares alike with two bounds exactly when it does not lie between them. -/
theorem lt_iff_lt_iff {first second value : K} :
    (first < value ↔ second < value) ↔ value ∉ Set.uIoc first second := by
  -- It passes both bounds or neither.
  rw [Set.notMem_uIoc]
  constructor
  · intro same
    rcases le_or_gt value first with below | above
    · exact .inl ⟨below, not_lt.mp fun passes => not_lt.mpr below (same.mpr passes)⟩
    · exact .inr ⟨same.mp above, above⟩
  · rintro (⟨belowFirst, belowSecond⟩ | ⟨aboveSecond, aboveFirst⟩)
    · exact iff_of_false (not_lt.mpr belowFirst) (not_lt.mpr belowSecond)
    · exact iff_of_true aboveFirst aboveSecond

/-- Shares in a range that compare alike with every threshold of the range are equal. -/
theorem eq_of_forall_lt_iff (low high : K) {first second : K} (first_mem : low ≤ first ∧ first ≤ high)
    (second_mem : low ≤ second ∧ second ≤ high)
    (same : ∀ threshold, low ≤ threshold → threshold ≤ high →
      (threshold < first ↔ threshold < second)) : first = second := by
  -- The smaller of two different shares would itself be a threshold between them.
  rcases lt_trichotomy first second with smaller | equal | larger
  · exact absurd ((same first first_mem.1 first_mem.2).mpr smaller) (lt_irrefl _)
  · exact equal
  · exact absurd ((same second second_mem.1 second_mem.2).mp larger) (lt_irrefl _)

end Shares

end IntegerParts
