import SlippCrunch.Basis.SeenList
import SlippCrunch.Combo.DamageLaws

/-! Which moves a combo's statistics count, and that no statistic depends on the order of the hits. -/

namespace SlippCrunch

namespace Combo

variable {F : Type}

/-- The loop counts the moves other than the one numbered zero. -/
theorem uniqueMoveCount_eq (combo : Combo F) :
    combo.uniqueMoveCount = ((combo.attacks.map Attack.moveId).toFinset.erase 0).card := by
  -- The list of seen moves starts with nothing but zeros.
  have loop : combo.uniqueMoveCount = (combo.attacks.foldl (SeenList.visit Attack.moveId)
      (List.replicate combo.attacks.length 0, 0)).2 := rfl
  rw [loop, SeenList.foldl_visit, Nat.zero_add, SeenList.unseen]
  congr 1
  ext moveId
  simp only [Finset.mem_sdiff, Finset.mem_erase, List.mem_toFinset, List.mem_replicate]
  constructor
  · rintro ⟨landed, unseen⟩
    refine ⟨fun zero => unseen ⟨?_, zero⟩, landed⟩
    -- A combo with a move has an attack, and with it a zero in the list.
    intro empty
    simp [List.length_eq_zero_iff.mp empty] at landed
  · -- A number other than zero is never in the list to begin with.
    rintro ⟨nonzero, landed⟩
    exact ⟨landed, fun seen => nonzero seen.2⟩

/-- The number of moves counted is the same in every order of the attacks. -/
theorem uniqueMoveCount_perm {combo other : Combo F} (same : other.attacks.Perm combo.attacks) :
    combo.uniqueMoveCount = other.uniqueMoveCount := by
  -- The count only depends on the set of the moves.
  rw [uniqueMoveCount_eq, uniqueMoveCount_eq,
    List.toFinset_eq_of_perm _ _ (same.map Attack.moveId)]

/-- The distinct moves are counted exactly when none of them is numbered zero. -/
theorem uniqueMoveCount_exact_iff (combo : Combo F) :
    combo.uniqueMoveCount = (combo.attacks.map Attack.moveId).toFinset.card ↔
      ∀ attack ∈ combo.attacks, attack.moveId ≠ 0 := by
  rw [uniqueMoveCount_eq]
  -- Leaving out a number lowers the count exactly where that number occurs.
  constructor
  · -- A move numbered zero makes the count one too small.
    intro same attack landed zero
    have occurs : (0 : UInt8) ∈ (combo.attacks.map Attack.moveId).toFinset := by
      rw [List.mem_toFinset, ← zero]
      exact List.mem_map_of_mem landed
    have fewer := Finset.card_erase_lt_of_mem occurs
    omega
  · intro nonzero
    rw [Finset.erase_eq_of_notMem]
    intro occurs
    obtain ⟨attack, landed, zero⟩ := List.mem_map.mp (List.mem_toFinset.mp occurs)
    exact nonzero attack landed zero

/-- A combo of one move numbered zero has one distinct move, but none is counted. -/
theorem moveZero_notCounted : letI := zeroConversion
    let combo : Combo ExtRat := { attacks := [default], punish := default }
    combo.uniqueMoveCount = 0 ∧ (combo.attacks.map Attack.moveId).toFinset.card = 1 := by
  -- The one zero in the list of seen moves hides the move.
  let undefinedConversion := zeroConversion
  exact ⟨by decide, by decide⟩

/-- Two combos have the same statistics, and pass the same tests. -/
structure SameStatistics [UndefinedConversion] (combo other : Combo ExtRat) : Prop where
  totalMoveCount : combo.totalMoveCount = other.totalMoveCount
  uniqueMoveCount : combo.uniqueMoveCount = other.uniqueMoveCount
  highestSingleAttackDamage : combo.highestSingleAttackDamage = other.highestSingleAttackDamage
  totalDamage : combo.totalDamage = other.totalDamage
  exceedsThreshold : ∀ threshold, combo.exceedsSingleAttackDamageRatioThreshold threshold =
    other.exceedsSingleAttackDamageRatioThreshold threshold
  isComboValid : isComboValid combo = isComboValid other

namespace DealsExactly

variable {combo other : Combo ExtRat} {damages : List ℚ}

/-- A permuted combo deals the same damages in another order. -/
theorem permuted (dealt : combo.DealsExactly damages) (same : other.attacks.Perm combo.attacks) :
    ∃ others, others.Perm damages ∧ other.DealsExactly others := by
  -- The damages are read off the permuted attacks.
  have order : (other.attacks.map fun attack => attack.damage.toRat).Perm damages := by
    rw [← dealt.toRat_eq]
    exact same.map _
  refine ⟨_, order, ?_, ?_, ?_⟩
  · rw [List.map_map]
    apply List.map_congr_left
    intro attack member
    obtain ⟨damage, _, deals⟩ := dealt.damage_mem (same.mem_iff.mp member)
    show attack.damage = .finite attack.damage.toRat
    rw [deals]
    rfl
  · intro damage member
    exact dealt.nonnegative damage (order.mem_iff.mp member)
  · -- A sum does not depend on the order of its terms.
    rw [order.sum_eq]
    exact dealt.small

variable [UndefinedConversion]

/-- The total damage is the same in every order. -/
theorem totalDamage_perm (dealt : combo.DealsExactly damages)
    (same : other.attacks.Perm combo.attacks) : combo.totalDamage = other.totalDamage := by
  -- Both totals add the same integer parts.
  obtain ⟨others, order, dealtOther⟩ := dealt.permuted same
  apply UInt16.toNat_inj.mp
  rw [dealt.totalDamage_eq, dealtOther.totalDamage_eq]
  exact (order.map Nat.floor).sum_eq.symm

/-- The highest damage is the same in every order. -/
theorem highestSingleAttackDamage_perm (dealt : combo.DealsExactly damages)
    (same : other.attacks.Perm combo.attacks) :
    combo.highestSingleAttackDamage = other.highestSingleAttackDamage := by
  -- Both combos deal the same damages, in one order or another.
  obtain ⟨others, order, dealtOther⟩ := dealt.permuted same
  by_cases empty : damages = []
  · -- Without attacks both combos answer the same constant.
    have none_here := dealt.attacks_eq_nil empty
    have none_there : other.attacks = [] := by
      rw [none_here] at same
      exact same.eq_nil
    simp only [highestSingleAttackDamage, none_here, none_there]
  · -- Whichever of several largest attacks is found, its damage is the largest one.
    obtain ⟨largest, greatest⟩ := exists_isGreatest empty
    have greatestOther : IsGreatest {damage | damage ∈ others} largest := by
      have sameSet : {damage | damage ∈ others} = {damage | damage ∈ damages} :=
        Set.ext fun damage => order.mem_iff
      rw [sameSet]
      exact greatest
    apply UInt16.toNat_inj.mp
    rw [dealt.highestSingleAttackDamage_eq greatest,
      dealtOther.highestSingleAttackDamage_eq greatestOther]

/-- A combo has the same statistics in whatever order its attacks are listed. -/
theorem statistics_perm (dealt : combo.DealsExactly damages)
    (same : other.attacks.Perm combo.attacks) (samePunish : other.punish = combo.punish) :
    combo.SameStatistics other := by
  have moves : combo.totalMoveCount = other.totalMoveCount := same.length_eq.symm
  have total := dealt.totalDamage_perm same
  have highest := dealt.highestSingleAttackDamage_perm same
  -- The ratio is computed from the two integers alone.
  have exceeds : ∀ threshold, combo.exceedsSingleAttackDamageRatioThreshold threshold =
      other.exceedsSingleAttackDamageRatioThreshold threshold := by
    intro threshold
    simp only [exceedsSingleAttackDamageRatioThreshold, highestSingleAttackDamageRatio, highest,
      total]
  refine ⟨moves, uniqueMoveCount_perm same, highest, total, exceeds, ?_⟩
  -- Whether the punish ended in a kill is the only other thing the filter asks.
  simp only [SlippCrunch.isComboValid, didKill, samePunish, moves, total, exceeds]

end DealsExactly

/-- Dealing damages in another order permutes the attacks. -/
theorem dealing_perm [UndefinedConversion] {damages others : List ℚ} (same : damages.Perm others) :
    (dealing damages).attacks.Perm (dealing others).attacks := by
  -- Every damage is dealt by an attack of its own.
  simp only [dealing]
  exact same.map _

/-- Three hits and the same three hits in reverse have the same statistics. -/
theorem reversedHits_statistics : letI := zeroConversion
    (dealing [17 / 2, 20, 3 / 4]).SameStatistics (dealing [3 / 4, 20, 17 / 2]) := by
  -- The second combo deals the damages of the first in reverse.
  let undefinedConversion := zeroConversion
  have dealt : (dealing [17 / 2, 20, 3 / 4]).DealsExactly [17 / 2, 20, 3 / 4] :=
    dealing_exactly (by decide +kernel) (by decide +kernel)
  have reversed : ([3 / 4, 20, 17 / 2] : List ℚ).Perm [17 / 2, 20, 3 / 4] :=
    List.reverse_perm [17 / 2, 20, 3 / 4]
  exact dealt.statistics_perm (dealing_perm reversed) rfl

end Combo

end SlippCrunch
