import Mathlib.Data.Finset.Dedup
import Mathlib.Data.Finset.Max
import SlippCrunch.Basis.IntegerParts
import SlippCrunch.Combo.Combo

/-! Integer accumulators read as integer parts: of every damage, and of the largest one. -/

namespace SlippCrunch

open IntegerParts

/-- The replaced candidate of a maximum search is the largest item, wherever it stands. -/
theorem foldl_larger {α K : Type} [LinearOrder K] {compare : α → α → Bool} {key : α → K}
    {Known : α → Prop}
    (compares : ∀ a b, Known a → Known b → (compare a b = true ↔ key a < key b)) :
    ∀ rest first, (∀ item ∈ first :: rest, Known item) → ∀ largest,
      rest.foldl (fun largest item => if compare largest item then item else largest) first =
        largest → largest ∈ first :: rest ∧ ∀ item ∈ first :: rest, key item ≤ key largest := by
  -- The candidate stays at least as large as everything already passed.
  intro rest
  induction rest with
  | nil =>
    intro first _ largest found
    subst found
    simp
  | cons next rest ih =>
    intro first known largest found
    have knownNext : Known next := known next (by simp)
    have knownRest : ∀ item ∈ rest, Known item := fun item member => known item (by simp [member])
    have order := compares first next (known first (by simp)) knownNext
    rw [List.foldl_cons] at found
    by_cases larger : compare first next = true
    · rw [if_pos larger] at found
      obtain ⟨member, greatest⟩ := ih next (by simpa using ⟨knownNext, knownRest⟩) largest found
      refine ⟨List.mem_cons_of_mem _ member, ?_⟩
      intro item inside
      rcases List.mem_cons.mp inside with rfl | inside
      · exact le_trans (le_of_lt (order.mp larger)) (greatest next (by simp))
      · exact greatest item inside
    · rw [if_neg larger] at found
      obtain ⟨member, greatest⟩ :=
        ih first (by simpa using ⟨known first (by simp), knownRest⟩) largest found
      have notLarger : key next ≤ key first := not_lt.mp fun less => larger (order.mpr less)
      refine ⟨?_, ?_⟩
      · rcases List.mem_cons.mp member with rfl | inside
        · simp
        · simp [inside]
      · intro item inside
        rcases List.mem_cons.mp inside with rfl | inside
        · exact greatest item (by simp)
        rcases List.mem_cons.mp inside with rfl | inside
        · exact le_trans notLarger (greatest first (by simp))
        · exact greatest item (by simp [inside])

namespace Combo

/-- The damages of a combo are known exactly, none is negative, and together they fit 16 bits. -/
structure DealsExactly (combo : Combo ExtRat) (damages : List ℚ) : Prop where
  exact : combo.attacks.map Attack.damage = damages.map ExtRat.finite
  nonnegative : ∀ damage ∈ damages, 0 ≤ damage
  small : damages.sum < 65536

/-- A combo dealing the given damages, and otherwise left at its initial values. -/
def dealing [UndefinedConversion] (damages : List ℚ) : Combo ExtRat :=
  { attacks := damages.map fun damage => { (default : Attack ExtRat) with damage := .finite damage }
    punish := default }

/-- Nonnegative damages of a small sum are dealt exactly. -/
theorem dealing_exactly [UndefinedConversion] {damages : List ℚ}
    (nonnegative : ∀ damage ∈ damages, 0 ≤ damage) (small : damages.sum < 65536) :
    (dealing damages).DealsExactly damages :=
  ⟨by simp [dealing, Function.comp_def], nonnegative, small⟩

namespace DealsExactly

variable {combo : Combo ExtRat} {damages : List ℚ}

/-- Each attack deals one of the listed damages. -/
theorem damage_mem (dealt : combo.DealsExactly damages) {attack : Attack ExtRat}
    (member : attack ∈ combo.attacks) :
    ∃ damage ∈ damages, attack.damage = .finite damage := by
  -- The damages of the attacks are the listed ones in their order.
  have listed : attack.damage ∈ combo.attacks.map Attack.damage := List.mem_map_of_mem member
  rw [dealt.exact] at listed
  obtain ⟨damage, inside, same⟩ := List.mem_map.mp listed
  exact ⟨damage, inside, same.symm⟩

/-- Each listed damage is dealt by one of the attacks. -/
theorem exists_attack (dealt : combo.DealsExactly damages) {damage : ℚ}
    (member : damage ∈ damages) : ∃ attack ∈ combo.attacks, attack.damage = .finite damage := by
  -- The listed damages are those of the attacks in their order.
  have listed : ExtRat.finite damage ∈ damages.map ExtRat.finite := List.mem_map_of_mem member
  rw [← dealt.exact] at listed
  exact List.mem_map.mp listed

/-- The damages are those of the attacks, in the order of the attacks. -/
theorem toRat_eq (dealt : combo.DealsExactly damages) :
    combo.attacks.map (fun attack => attack.damage.toRat) = damages := by
  -- Reading a finite value back is the identity.
  have read : combo.attacks.map (fun attack => attack.damage.toRat) =
      (combo.attacks.map Attack.damage).map ExtRat.toRat := by simp
  rw [read, dealt.exact, List.map_map]
  exact List.map_id damages

/-- Without damages there are no attacks. -/
theorem attacks_eq_nil (dealt : combo.DealsExactly damages) (empty : damages = []) :
    combo.attacks = [] := by
  simpa [empty] using dealt.toRat_eq

/-- Some attack deals the largest damage, if there is an attack at all. -/
theorem exists_isGreatest (nonempty : damages ≠ []) :
    ∃ largest, IsGreatest {damage | damage ∈ damages} largest := by
  -- A finite set that is not empty has a maximum.
  have some_damage : damages.toFinset.Nonempty :=
    (List.toFinset_nonempty_iff damages).mpr nonempty
  have greatest := damages.toFinset.isGreatest_max' some_damage
  rw [List.coe_toFinset] at greatest
  exact ⟨_, greatest⟩

variable [UndefinedConversion]

/-- Adding damages one by one in an integer adds their integer parts. -/
theorem foldl_totalDamage : ∀ (damages : List ℚ) (total : UInt16),
    (∀ damage ∈ damages, 0 ≤ damage) → total.toNat + damages.sum < 65536 →
    (damages.foldl (fun total damage => FloatOps.toUInt16 (F := ExtRat)
      (FloatOps.add (FloatOps.ofUInt16 total) (.finite damage))) total).toNat =
        total.toNat + (damages.map Nat.floor).sum := by
  -- The accumulator is an integer, so storing the sum drops the new damage's fraction only.
  intro damages
  induction damages with
  | nil =>
    intro total _ _
    simp
  | cons damage rest ih =>
    intro total nonnegative small
    have nonnegativeHere : 0 ≤ damage := nonnegative damage (by simp)
    have nonnegativeRest : ∀ other ∈ rest, 0 ≤ other :=
      fun other member => nonnegative other (by simp [member])
    have restSum : 0 ≤ rest.sum := List.sum_nonneg nonnegativeRest
    have totalNonnegative : (0 : ℚ) ≤ total.toNat := Nat.cast_nonneg _
    rw [List.sum_cons] at small
    have stored : (FloatOps.toUInt16 (ExtRat.finite (total.toNat + damage))).toNat =
        total.toNat + ⌊damage⌋₊ := by
      rw [ExtRat.toUInt16_finite (by linarith) (by linarith), add_comm,
        Nat.floor_add_natCast nonnegativeHere, add_comm]
    have floored : (⌊damage⌋₊ : ℚ) ≤ damage := Nat.floor_le nonnegativeHere
    rw [List.foldl_cons, ExtRat.ofUInt16_eq, ExtRat.add_finite, ih _ nonnegativeRest, stored,
      List.map_cons, List.sum_cons, Nat.add_assoc]
    rw [stored]
    push_cast
    linarith

/-- The total damage is the sum of the damages' integer parts. -/
theorem totalDamage_eq (dealt : combo.DealsExactly damages) :
    combo.totalDamage.toNat = (damages.map Nat.floor).sum := by
  -- The loop over the attacks reads nothing of them but their damages.
  have loop : combo.totalDamage = (combo.attacks.map Attack.damage).foldl
      (fun total damage => FloatOps.toUInt16 (FloatOps.add (FloatOps.ofUInt16 total) damage)) 0 := by
    rw [List.foldl_map]
    rfl
  rw [loop, dealt.exact, List.foldl_map, foldl_totalDamage damages 0 dealt.nonnegative]
  · simp
  · simpa using dealt.small

/-- The highest damage is the integer part of the largest one. -/
theorem highestSingleAttackDamage_eq (dealt : combo.DealsExactly damages) {largest : ℚ}
    (greatest : IsGreatest {damage | damage ∈ damages} largest) :
    combo.highestSingleAttackDamage.toNat = ⌊largest⌋₊ := by
  -- The attack dealing the largest damage makes the range nonempty.
  obtain ⟨largestMem, largestBound⟩ := greatest
  obtain ⟨attack, inside, deals⟩ := dealt.exists_attack largestMem
  cases attacks : combo.attacks with
  | nil => simp [attacks] at inside
  | cons first rest =>
    have known : ∀ attack ∈ first :: rest, ∃ damage ∈ damages, attack.damage = .finite damage :=
      fun attack member => dealt.damage_mem (attacks ▸ member)
    have compares : ∀ a b : Attack ExtRat,
        (∃ damage ∈ damages, a.damage = .finite damage) →
        (∃ damage ∈ damages, b.damage = .finite damage) →
        (FloatOps.lt a.damage b.damage = true ↔ a.damage.toRat < b.damage.toRat) := by
      rintro a b ⟨_, _, dealtByA⟩ ⟨_, _, dealtByB⟩
      simp [dealtByA, dealtByB, ExtRat.toRat]
    obtain ⟨highestMem, highest⟩ := foldl_larger compares rest first known _ rfl
    set highestAttack := rest.foldl (fun largest item =>
      if FloatOps.lt largest.damage item.damage then item else largest) first
    -- The attack found deals a listed damage, which no listed damage exceeds.
    obtain ⟨damage, damageMem, dealtByHighest⟩ := known _ highestMem
    have same : damage = largest := by
      apply le_antisymm (largestBound damageMem)
      have bound := highest attack (attacks ▸ inside)
      simpa [deals, dealtByHighest, ExtRat.toRat] using bound
    subst same
    have fits : damage < 65536 :=
      lt_of_le_of_lt (List.single_le_sum dealt.nonnegative _ damageMem) dealt.small
    have found : combo.highestSingleAttackDamage = FloatOps.toUInt16 highestAttack.damage := by
      simp only [highestSingleAttackDamage, attacks, maxElement]
      rfl
    rw [found, dealtByHighest, ExtRat.toUInt16_finite (dealt.nonnegative _ damageMem) fits]

/-- Above any nonnegative threshold, the ratio tested is that of the integer parts. -/
theorem exceedsSingleAttackDamageRatioThreshold_iff (dealt : combo.DealsExactly damages)
    {largest : ℚ} (greatest : IsGreatest {damage | damage ∈ damages} largest) {threshold : ℚ}
    (nonnegative : 0 ≤ threshold) :
    combo.exceedsSingleAttackDamageRatioThreshold (.finite threshold) = true ↔
      threshold < (⌊largest⌋₊ : ℚ) / (damages.map Nat.floor).sum := by
  -- A total of zero makes the ratio no number, as the highest damage is then zero as well.
  have bounded : ⌊largest⌋₊ ≤ (damages.map Nat.floor).sum :=
    List.le_sum_of_mem (List.mem_map_of_mem greatest.1)
  rw [exceedsSingleAttackDamageRatioThreshold, highestSingleAttackDamageRatio,
    ExtRat.ofUInt16_eq, ExtRat.ofUInt16_eq, dealt.totalDamage_eq,
    dealt.highestSingleAttackDamage_eq greatest]
  by_cases none : (damages.map Nat.floor).sum = 0
  · have nothing : ⌊largest⌋₊ = 0 := by omega
    simp [none, nothing, nonnegative]
  · rw [ExtRat.div_finite _ (by exact_mod_cast none)]
    simp

end DealsExactly

/-- The total is the integer part of the damage dealt, and tells whether it reaches sixty. -/
def TotalIsDealt [UndefinedConversion] (combo : Combo ExtRat) (damages : List ℚ) : Prop :=
  combo.totalDamage.toNat = ⌊damages.sum⌋₊ ∧ (60 ≤ combo.totalDamage ↔ 60 ≤ damages.sum)

namespace DealsExactly

variable [UndefinedConversion] {combo : Combo ExtRat} {damages : List ℚ}

/-- A total that is the integer part of the damage passes the test exactly when the damage does. -/
theorem totalIsDealt_iff (dealt : combo.DealsExactly damages) :
    combo.TotalIsDealt damages ↔ (damages.map Nat.floor).sum = ⌊damages.sum⌋₊ := by
  -- Sixty is an integer, so it is reached by the damage and its integer part together.
  rw [TotalIsDealt, UInt16.le_iff_toNat_le, dealt.totalDamage_eq]
  constructor
  · exact fun both => both.1
  · intro same
    refine ⟨same, ?_⟩
    rw [same]
    exact Nat.le_floor_iff (List.sum_nonneg dealt.nonnegative)

/-- The total damage is right exactly when the fractional parts make up less than one. -/
theorem totalDamage_exact_iff (dealt : combo.DealsExactly damages) :
    combo.TotalIsDealt damages ↔ (damages.map Int.fract).sum < 1 := by
  -- What is added up are the integer parts, which miss the fractional ones.
  rw [dealt.totalIsDealt_iff]
  exact floor_sum_eq_iff dealt.nonnegative

end DealsExactly

/-- A total with a quarter of a percent to spare is right. -/
theorem quarterSpare_total : letI := zeroConversion
    (dealing [60, 1 / 4]).TotalIsDealt [60, 1 / 4] := by
  -- The fractional parts are a quarter and nothing, which is less than one.
  let undefinedConversion := zeroConversion
  have dealt : (dealing [60, 1 / 4]).DealsExactly [60, 1 / 4] :=
    dealing_exactly (by decide +kernel) (by decide +kernel)
  exact dealt.totalDamage_exact_iff.mpr (by decide +kernel)

/-- Seven hits of 8.6 percent deal more than sixty, but are totalled at fifty-six. -/
theorem sevenHits_total : letI := zeroConversion
    (dealing (List.replicate 7 (43 / 5))).DealsExactly (List.replicate 7 (43 / 5)) ∧
      ¬ (dealing (List.replicate 7 (43 / 5))).TotalIsDealt (List.replicate 7 (43 / 5)) := by
  let undefinedConversion := zeroConversion
  refine ⟨dealing_exactly (by decide +kernel) (by decide +kernel), ?_⟩
  rintro ⟨_, test⟩
  -- Each hit loses six tenths, which together are more than the sixty is exceeded by.
  have rejected : ¬ 60 ≤ (dealing (List.replicate 7 (43 / 5))).totalDamage := by decide +kernel
  exact rejected (test.mpr (by decide +kernel))

namespace DealsExactly

variable [UndefinedConversion] {combo : Combo ExtRat} {damages : List ℚ}

/-- The threshold test tells what the integer part of the largest damage exceeds. -/
theorem exceedsSingleAttackDamageRatioThreshold_parts (dealt : combo.DealsExactly damages)
    {largest : ℚ} (greatest : IsGreatest {damage | damage ∈ damages} largest) {threshold : ℚ}
    (nonnegative : 0 ≤ threshold) :
    combo.exceedsSingleAttackDamageRatioThreshold (.finite threshold) = true ↔
      0 < (⌊largest⌋₊ : ℚ) - threshold * (damages.map Nat.floor).sum := by
  -- A total of zero is exceeded by nothing, as the highest damage is then zero as well.
  have bounded : ⌊largest⌋₊ ≤ (damages.map Nat.floor).sum :=
    List.le_sum_of_mem (List.mem_map_of_mem greatest.1)
  rw [dealt.exceedsSingleAttackDamageRatioThreshold_iff greatest nonnegative, sub_pos]
  rcases Nat.eq_zero_or_pos (damages.map Nat.floor).sum with none | some
  · have nothing : ⌊largest⌋₊ = 0 := by omega
    simp [none, nothing, nonnegative]
  · exact lt_div_iff₀ (by exact_mod_cast some)

/-- The threshold test is right exactly when the lost fractions do not turn its outcome round. -/
theorem exceedsSingleAttackDamageRatioThreshold_exact_iff (dealt : combo.DealsExactly damages)
    {largest : ℚ} (greatest : IsGreatest {damage | damage ∈ damages} largest)
    (positive : 0 < damages.sum) :
    (∀ threshold, 0 ≤ threshold → threshold ≤ 1 →
      ((combo.exceedsSingleAttackDamageRatioThreshold (.finite threshold) = true ↔
          threshold * damages.sum < largest) ↔
        (⌊largest⌋₊ : ℚ) - threshold * (damages.map Nat.floor).sum ∉
          Set.uIoc 0 (threshold * (damages.map Int.fract).sum - Int.fract largest))) ∧
    ((∀ threshold, 0 ≤ threshold → threshold ≤ 1 →
      (combo.exceedsSingleAttackDamageRatioThreshold (.finite threshold) = true ↔
        threshold * damages.sum < largest)) ↔
      (∃ damage ∈ damages, 1 ≤ damage) ∧
        Int.fract largest * (damages.map Nat.floor).sum =
          ⌊largest⌋₊ * (damages.map Int.fract).sum) := by
  -- Both tests compare the threshold with a share of the damage.
  have tested : ∀ threshold, 0 ≤ threshold →
      (combo.exceedsSingleAttackDamageRatioThreshold (.finite threshold) = true ↔
        threshold < (⌊largest⌋₊ : ℚ) / (damages.map Nat.floor).sum) :=
    fun threshold nonnegative =>
      dealt.exceedsSingleAttackDamageRatioThreshold_iff greatest nonnegative
  have meant : ∀ threshold : ℚ,
      (threshold * damages.sum < largest ↔ threshold < largest / damages.sum) :=
    fun threshold => (lt_div_iff₀ positive).symm
  have largestBounded : largest ≤ damages.sum := List.single_le_sum dealt.nonnegative _ greatest.1
  have partsBounded : ⌊largest⌋₊ ≤ (damages.map Nat.floor).sum :=
    List.le_sum_of_mem (List.mem_map_of_mem greatest.1)
  have largestPositive : 0 < largest := by
    -- Nothing but zeros would add up to zero.
    by_contra notPositive
    have zeros : damages.sum ≤ damages.length • (0 : ℚ) := List.sum_le_card_nsmul _ _
      fun damage member => le_trans (greatest.2 member) (not_lt.mp notPositive)
    rw [nsmul_zero] at zeros
    exact absurd positive (not_lt.mpr zeros)
  constructor
  · intro threshold nonnegative _
    rw [dealt.exceedsSingleAttackDamageRatioThreshold_parts greatest nonnegative,
      mul_sum_lt_iff dealt.nonnegative greatest.1]
    exact lt_iff_lt_iff
  · rw [← share_eq_iff dealt.nonnegative greatest.1 largestPositive]
    constructor
    · intro same
      apply eq_of_forall_lt_iff 0 1
      · exact ⟨by positivity, div_le_one_of_le₀ (by exact_mod_cast partsBounded) (by positivity)⟩
      · exact ⟨(div_pos largestPositive positive).le, div_le_one_of_le₀ largestBounded positive.le⟩
      · intro threshold nonnegative small
        rw [← tested threshold nonnegative, ← meant threshold]
        exact same threshold nonnegative small
    · intro same threshold nonnegative _
      rw [tested threshold nonnegative, meant threshold, same]

end DealsExactly

/-- The share of the largest of three whole damages is tested rightly against a quarter. -/
theorem wholeDamages_share : letI := zeroConversion
    (dealing [10, 20, 10]).exceedsSingleAttackDamageRatioThreshold (.finite (1 / 4)) = true ↔
      1 / 4 * ([10, 20, 10] : List ℚ).sum < 20 := by
  -- Whole damages have no fractional parts, so both sides of the condition are zero.
  let undefinedConversion := zeroConversion
  have dealt : (dealing [10, 20, 10]).DealsExactly [10, 20, 10] :=
    dealing_exactly (by decide +kernel) (by decide +kernel)
  have greatest : IsGreatest {damage | damage ∈ ([10, 20, 10] : List ℚ)} 20 := by
    have bounded : ∀ damage ∈ ([10, 20, 10] : List ℚ), damage ≤ 20 := by decide +kernel
    exact ⟨by simp, fun damage member => bounded damage member⟩
  exact (dealt.exceedsSingleAttackDamageRatioThreshold_exact_iff greatest
    (by decide +kernel)).2.mpr (by decide +kernel) (1 / 4) (by norm_num) (by norm_num)

/-- One hit of 20 percent among nine of 6.9 is below a quarter, but is tested as above it. -/
theorem nineHits_share : letI := zeroConversion
    (dealing (20 :: List.replicate 9 (69 / 10))).DealsExactly
        (20 :: List.replicate 9 (69 / 10)) ∧
      IsGreatest {damage | damage ∈ 20 :: List.replicate 9 (69 / 10 : ℚ)} 20 ∧
      ¬ ((dealing (20 :: List.replicate 9 (69 / 10))).exceedsSingleAttackDamageRatioThreshold
          (.finite (1 / 4)) = true ↔
        1 / 4 * (20 :: List.replicate 9 (69 / 10 : ℚ)).sum < 20) := by
  let undefinedConversion := zeroConversion
  have bounded : ∀ damage ∈ 20 :: List.replicate 9 (69 / 10 : ℚ), damage ≤ 20 := by
    decide +kernel
  refine ⟨dealing_exactly (by decide +kernel) (by decide +kernel),
    ⟨by simp, fun damage member => bounded damage member⟩, ?_⟩
  -- Without their fractions the nine hits weigh less against the large one.
  decide +kernel

end Combo

end SlippCrunch
