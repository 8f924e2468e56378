import Mathlib.Data.List.GetD
import SlippCrunch.Combo.ScanLaws

/-! What the scan does not read has no influence on what it returns. -/

namespace SlippCrunch

open Blocks

variable {F : Type}

/-- No attack of a player in front of an index is at frame zero. -/
def AnalysisPlayer.Landed (player : AnalysisPlayer F) (i : Nat) : Prop :=
  ∀ j, j < i → (inside : j < maxAttacks) → 0 < player.attacks[j].frame

/-- Two analyses agree on everything the scan looks at. -/
structure ScansAgree (analysis other : Analysis F) : Prop where
  /-- The test for the tag comes out the same. -/
  tag : tagMatches analysis = tagMatches other
  /-- The attacks are the same up to the first at frame zero, which is included. -/
  attacks : ∀ i, (inside : i < maxAttacks) → (chosenPlayer analysis).Landed i →
    (chosenPlayer analysis).attacks[i] = (chosenPlayer other).attacks[i]
  /-- The punishes are the same where an attack in front of the first at frame zero refers to them. -/
  punishes : ∀ i, (inside : i < maxAttacks) → (chosenPlayer analysis).Landed (i + 1) →
    (chosenPlayer analysis).punishOf (chosenPlayer analysis).attacks[i].punishId =
      (chosenPlayer other).punishOf (chosenPlayer analysis).attacks[i].punishId

namespace AnalysisPlayer

variable {player : AnalysisPlayer F}

/-- All attacks in front of the first one at frame zero have landed. -/
theorem FirstFrameZero.landed {n : Nat} (first : player.FirstFrameZero n) : player.Landed n :=
  fun j earlier _ => first.before j earlier

/-- What has landed in front of an index has landed in front of every smaller one. -/
theorem Landed.mono {i n : Nat} (landed : player.Landed n) (bound : i ≤ n) : player.Landed i :=
  fun j earlier => landed j (by omega)

/-- An attack in front of an index stands at a position in front of it. -/
theorem mem_attacksBefore {n : Nat} {attack : Attack F}
    (member : attack ∈ player.attacksBefore n) :
    ∃ i, ∃ inside : i < maxAttacks, i < n ∧ player.attacks[i] = attack := by
  -- The prefix holds the entries of the array at the same positions.
  obtain ⟨i, bound, same⟩ := List.getElem_of_mem member
  simp only [attacksBefore, List.length_take, Vector.length_toList] at bound
  refine ⟨i, by omega, by omega, ?_⟩
  rw [← same]
  simp [attacksBefore]

variable [FloatOps F]

/-- The combo of a block depends on nothing but the block and the punish its attacks refer to. -/
theorem comboOf_congr {other : AnalysisPlayer F} {block : List (Attack F)}
    (agree : ∀ attack ∈ block, player.punishOf attack.punishId = other.punishOf attack.punishId) :
    player.comboOf block = other.comboOf block := by
  -- The punish is that of the first attack, if there is one.
  cases block with
  | nil => rfl
  | cons first rest => simp [comboOf, agree first (by simp)]

end AnalysisPlayer

namespace ScansAgree

variable {analysis other : Analysis F}

/-- The first attack at frame zero is the same one. -/
theorem firstFrameZero (agree : ScansAgree analysis other) {n : Nat}
    (first : (chosenPlayer analysis).FirstFrameZero n) : (chosenPlayer other).FirstFrameZero n := by
  -- Up to that attack, both players' attacks are the same.
  have landed := first.landed
  refine ⟨first.inside, ?_, ?_⟩
  · rw [← agree.attacks n first.inside landed]
    exact first.frameZero
  · intro i earlier
    have inside := first.inside
    rw [← agree.attacks i (by omega) (landed.mono earlier.le)]
    exact first.before i earlier

/-- The attacks in front of the first one at frame zero are the same. -/
theorem attacksBefore (agree : ScansAgree analysis other) {n : Nat}
    (first : (chosenPlayer analysis).FirstFrameZero n) :
    (chosenPlayer analysis).attacksBefore n = (chosenPlayer other).attacksBefore n := by
  -- The prefixes are compared entry by entry.
  apply List.ext_getElem
  · simp [AnalysisPlayer.attacksBefore]
  · intro i inside _
    simp only [AnalysisPlayer.attacksBefore, List.length_take, Vector.length_toList] at inside
    have bound : i < maxAttacks := by omega
    simpa [AnalysisPlayer.attacksBefore] using
      agree.attacks i bound (first.landed.mono (by omega))

variable [FloatOps F]

/-- The combos of the blocks are the same. -/
theorem combos (agree : ScansAgree analysis other) {n : Nat}
    (first : (chosenPlayer analysis).FirstFrameZero n) :
    ((chosenPlayer analysis).punishBlocks n).dropLast.map (chosenPlayer analysis).comboOf =
      ((chosenPlayer other).punishBlocks n).dropLast.map (chosenPlayer other).comboOf := by
  rw [AnalysisPlayer.punishBlocks, AnalysisPlayer.punishBlocks, ← agree.attacksBefore first]
  apply List.map_congr_left
  intro block member
  apply AnalysisPlayer.comboOf_congr
  intro attack inBlock
  -- An attack of a block is one of the attacks scanned.
  have scanned : attack ∈ (chosenPlayer analysis).attacksBefore n := by
    rw [← flatten_blocks Attack.punishId ((chosenPlayer analysis).attacksBefore n)]
    exact List.mem_flatten.mpr ⟨block, (List.dropLast_sublist _).subset member, inBlock⟩
  obtain ⟨i, inside, earlier, same⟩ := AnalysisPlayer.mem_attacksBefore scanned
  rw [← same]
  exact agree.punishes i inside (first.landed.mono earlier)

end ScansAgree

variable [FloatOps F]

/-- Analyses that agree on everything the scan looks at yield the same combos. -/
theorem findCombosFromAnalysis_congr {analysis other : Analysis F}
    (agree : ScansAgree analysis other) :
    findCombosFromAnalysis analysis = findCombosFromAnalysis other := by
  -- A scan is told by its first attack at frame zero and by the attacks in front of it.
  by_cases stops : ∃ n, (chosenPlayer analysis).FirstFrameZero n
  · -- Both scans end at the same attack, with the same blocks behind them.
    obtain ⟨n, first⟩ := stops
    rw [findCombosFromAnalysis_eq first, findCombosFromAnalysis_eq (agree.firstFrameZero first),
      agree.combos first]
  · -- Without an end all attacks agree, and both scans leave the array.
    have full : ∀ i, (inside : i < maxAttacks) → 0 < (chosenPlayer analysis).attacks[i].frame := by
      by_contra some_zero
      exact stops (AnalysisPlayer.exists_firstFrameZero _ some_zero)
    rw [findCombosFromAnalysis_overrun full, findCombosFromAnalysis_overrun]
    intro i inside
    rw [← agree.attacks i inside fun j _ insideJ => full j insideJ]
    exact full i inside

/-- Entries behind an unused attack, and punishes behind those referred to, are not looked at. -/
theorem scansAgree_stale {attacks stale : List (Attack F)} {punishes unused : List (Punish F)}
    (fits : attacks.length < maxAttacks) (landed : ∀ attack ∈ attacks, 0 < attack.frame)
    (referred : ∀ attack ∈ attacks, attack.punishId.toNat < punishes.length) :
    ScansAgree (gameOf attacks punishes)
      (gameOf (attacks ++ default :: stale) (punishes ++ unused)) := by
  have first : (chosenPlayer (gameOf attacks punishes)).FirstFrameZero attacks.length :=
    firstFrameZero_gameOf fits landed
  -- The scan comes no farther than the entry behind the given attacks.
  have reached : ∀ i, (chosenPlayer (gameOf attacks punishes)).Landed i → i ≤ attacks.length := by
    intro i early
    by_contra behind
    have positive := early attacks.length (by omega) first.inside
    simp [first.frameZero] at positive
  refine ⟨by simp [tagMatches, gameOf], ?_, ?_⟩
  · intro i inside early
    have bound := reached i early
    simp only [chosenPlayer_gameOf, filled, Vector.getElem_ofFn]
    rcases Nat.lt_or_eq_of_le bound with given | last
    · rw [List.getD_append _ _ _ _ given]
    · simp [last]
  · intro i inside early
    have bound := reached (i + 1) early
    have given : i < attacks.length := by omega
    rw [punishOf_gameOf, punishOf_gameOf]
    simp only [chosenPlayer_gameOf, filled, Vector.getElem_ofFn, List.getD_eq_getElem _ _ given]
    -- The punish stands in front of those that are not referred to.
    rw [List.getD_append _ _ _ _ (referred _ (List.getElem_mem given))]

/-- Three more hits behind the end, and a kill nobody refers to, leave the one combo that is found. -/
theorem staleHits_ignored : letI := zeroConversion
    let analysis := gameOf (hits 0 7 ++ hits 1 1) [killedUp, default]
    let stale := gameOf (hits 0 7 ++ hits 1 1 ++ default :: hits 2 3)
      ([killedUp, default] ++ [killedUp])
    findCombosFromAnalysis analysis = .ok [{ attacks := hits 0 7, punish := killedUp }] ∧
      findCombosFromAnalysis stale = findCombosFromAnalysis analysis := by
  let undefinedConversion := zeroConversion
  refine ⟨firstPunish_found [default], (findCombosFromAnalysis_congr ?_).symm⟩
  -- All eight hits refer to one of the first two punishes.
  apply scansAgree_stale
  · simp [hits, maxAttacks]
  · simp [hits]
  · simp [hits]

end SlippCrunch
