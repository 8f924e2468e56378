import SlippCrunch.Combo.DamageLaws

/-! The filter on combos: its division is guarded, and what it accepts rests on several hits. -/

namespace SlippCrunch

open IntegerParts

/-- A division by a total damage of zero. -/
structure DivisionByZero where
  deriving DecidableEq, Repr

namespace Combo

variable {F : Type} [FloatOps F]

/-- The largest damage as a share of all of it, reporting a division by zero. -/
def highestSingleAttackDamageRatioChecked (combo : Combo F) : Except DivisionByZero F :=
  if combo.totalDamage = 0 then .error {} else .ok combo.highestSingleAttackDamageRatio

/-- The threshold test, reporting a division by zero. -/
def exceedsSingleAttackDamageRatioThresholdChecked (combo : Combo F) (damageRatioThreshold : F) :
    Except DivisionByZero Bool := do
  let ratio ← combo.highestSingleAttackDamageRatioChecked
  return FloatOps.lt damageRatioThreshold ratio

end Combo

variable {F : Type} [FloatOps F]

/-- The filter with its tests in the order they are made, reporting a division by zero. -/
def isComboValidChecked (combo : Combo F) : Except DivisionByZero Bool := do
  -- The last test is only made when those before it have passed.
  if combo.didKill && decide (7 ≤ combo.totalMoveCount) && decide (60 ≤ combo.totalDamage) then
    return !(← combo.exceedsSingleAttackDamageRatioThresholdChecked (FloatOps.literal 1 4))
  return false

/-- The filter never divides by zero, and checking for it changes no answer. -/
theorem isComboValidChecked_eq (combo : Combo F) :
    isComboValidChecked combo = .ok (isComboValid combo) := by
  -- The ratio is the only test that divides, and it comes last.
  unfold isComboValidChecked isComboValid
  by_cases passed : (combo.didKill && decide (7 ≤ combo.totalMoveCount) &&
      decide (60 ≤ combo.totalDamage)) = true
  · -- Only a total of at least sixty is ever divided by.
    have nonzero : combo.totalDamage ≠ 0 := by
      intro zero
      simp only [zero, Bool.and_eq_true, decide_eq_true_eq] at passed
      exact absurd passed.2 (by decide)
    simp [passed, nonzero, Combo.exceedsSingleAttackDamageRatioThresholdChecked,
      Combo.highestSingleAttackDamageRatioChecked, Combo.exceedsSingleAttackDamageRatioThreshold,
      Bind.bind, Except.bind, Pure.pure, Except.pure]
  · -- Where an earlier test fails, the ratio is not asked for.
    simp [passed, Pure.pure, Except.pure]

/-- The arithmetic of the filter is sound for a combo. -/
structure FilterIsSound [UndefinedConversion] (combo : Combo ExtRat) : Prop where
  neverDividesByZero : isComboValidChecked combo = .ok (isComboValid combo)
  highest_le_total : combo.highestSingleAttackDamage ≤ combo.totalDamage
  four_hits : isComboValid combo = true →
    4 ≤ combo.attacks.countP fun attack => decide (1 ≤ attack.damage.toRat)

namespace Combo.DealsExactly

variable [UndefinedConversion] {combo : Combo ExtRat} {damages : List ℚ}

/-- The highest damage is at most the total damage. -/
theorem highest_le_total (dealt : combo.DealsExactly damages) :
    combo.highestSingleAttackDamage ≤ combo.totalDamage := by
  -- The largest damage is rounded down before it is compared, and so are those added up.
  rw [UInt16.le_iff_toNat_le]
  by_cases empty : damages = []
  · -- Without attacks both are zero.
    have none_here := dealt.attacks_eq_nil empty
    have zero : combo.highestSingleAttackDamage.toNat = 0 := by
      simp only [highestSingleAttackDamage, none_here, maxElement, ExtRat.literal_eq]
      rw [ExtRat.toUInt16_finite (by norm_num) (by norm_num)]
      norm_num
    omega
  · -- The integer part of the largest damage is one of those added up.
    obtain ⟨largest, greatest⟩ := exists_isGreatest empty
    rw [dealt.highestSingleAttackDamage_eq greatest, dealt.totalDamage_eq]
    exact List.le_sum_of_mem (List.mem_map_of_mem greatest.1)

/-- An accepted combo has at least four attacks of damage at least one. -/
theorem four_le_of_isComboValid (dealt : combo.DealsExactly damages)
    (valid : isComboValid combo = true) :
    4 ≤ combo.attacks.countP fun attack => decide (1 ≤ attack.damage.toRat) := by
  -- The damages are counted in place of the attacks.
  have counts : (combo.attacks.countP fun attack => decide (1 ≤ attack.damage.toRat)) =
      damages.countP fun damage => decide (1 ≤ damage) := by
    rw [← dealt.toRat_eq, List.countP_map]
    rfl
  rw [counts]
  simp only [isComboValid, Bool.and_eq_true, decide_eq_true_eq, Bool.not_eq_true'] at valid
  obtain ⟨⟨⟨_, long⟩, strong⟩, balanced⟩ := valid
  rw [UInt16.le_iff_toNat_le, dealt.totalDamage_eq] at strong
  have some_damage : damages ≠ [] := by
    rintro rfl
    simp at strong
  obtain ⟨largest, greatest⟩ := exists_isGreatest some_damage
  -- The largest part is at most a quarter of the sum of all parts.
  have quarter : 4 * ⌊largest⌋₊ ≤ (damages.map Nat.floor).sum := by
    have notExceeded : ¬ combo.exceedsSingleAttackDamageRatioThreshold (.finite (1 / 4)) = true := by
      simpa using balanced
    rw [dealt.exceedsSingleAttackDamageRatioThreshold_iff greatest (by norm_num)] at notExceeded
    have positive : (0 : ℚ) < ((damages.map Nat.floor).sum : Nat) := by
      have sixty : 0 < (damages.map Nat.floor).sum := lt_of_lt_of_le (by decide) strong
      exact_mod_cast sixty
    rw [not_lt, div_le_iff₀ positive] at notExceeded
    have scaled : (4 * ⌊largest⌋₊ : ℚ) ≤ ((damages.map Nat.floor).sum : Nat) := by linarith
    exact_mod_cast scaled
  -- The sum is at most the largest part for each attack of damage at least one.
  have counted : (damages.map Nat.floor).sum ≤
      (damages.countP fun damage => decide (1 ≤ damage)) * ⌊largest⌋₊ :=
    sum_floor_le_countP_mul fun damage member => Nat.floor_le_floor (greatest.2 member)
  by_contra few
  -- With three of them or fewer, the largest part would exceed a quarter of the sum.
  have three : (damages.countP fun damage => decide (1 ≤ damage)) ≤ 3 := by omega
  have bounded := Nat.mul_le_mul_right ⌊largest⌋₊ three
  have sixty : 60 ≤ (damages.map Nat.floor).sum := strong
  omega

/-- Where damages are exact, the filter's arithmetic is sound. -/
theorem filterIsSound (dealt : combo.DealsExactly damages) : FilterIsSound combo :=
  ⟨isComboValidChecked_eq combo, dealt.highest_le_total, dealt.four_le_of_isComboValid⟩

end Combo.DealsExactly

/-- The filter is sound for a valid combo of six hits of 10.5 percent and two that hardly count. -/
theorem eightHits_filtered : letI := zeroConversion
    let combo : Combo ExtRat :=
      { Combo.dealing (List.replicate 6 (21 / 2) ++ [0, 1 / 2]) with
        punish := { (default : Punish ExtRat) with killDir := Dir.up.value } }
    isComboValid combo = true ∧ FilterIsSound combo := by
  let undefinedConversion := zeroConversion
  have dealt : (Combo.dealing (List.replicate 6 (21 / 2) ++ [0, 1 / 2])).DealsExactly
      (List.replicate 6 (21 / 2) ++ [0, 1 / 2]) :=
    Combo.dealing_exactly (by decide +kernel) (by decide +kernel)
  refine ⟨by decide +kernel, ?_⟩
  -- The record of the punish has no part in the damages.
  exact Combo.DealsExactly.filterIsSound ⟨dealt.exact, dealt.nonnegative, dealt.small⟩

end SlippCrunch
