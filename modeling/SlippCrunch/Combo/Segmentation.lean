import SlippCrunch.Combo.ScanLaws

/-! What the scan returns of a game's blocks: only valid combos, and all of them but the last. -/

namespace SlippCrunch

open Blocks

variable {F : Type} [FloatOps F]

/-- The returned combos are a selection of the blocks, in game order and each taken whole. -/
theorem findCombosFromAnalysis_sound {analysis : Analysis F} {n : Nat}
    (first : (chosenPlayer analysis).FirstFrameZero n) :
    ∃ selected : List (List (Attack F)), selected.Sublist ((chosenPlayer analysis).punishBlocks n) ∧
      findCombosFromAnalysis analysis = .ok (selected.map (chosenPlayer analysis).comboOf) ∧
      ∀ block ∈ selected, ∃ combo, combo = (chosenPlayer analysis).comboOf block ∧
        isComboValid combo = true ∧ combo.attacks = block ∧
        (∀ attack ∈ block, combo.punish = (chosenPlayer analysis).punishOf attack.punishId) ∧
        ∃ before after, (chosenPlayer analysis).attacksBefore n = before ++ block ++ after ∧
          Maximal Attack.punishId before block after := by
  -- The scan selects those of the closed blocks whose combo is valid.
  set player := chosenPlayer analysis
  refine ⟨(player.punishBlocks n).dropLast.filter fun block => isComboValid (player.comboOf block),
    (List.filter_sublist ..).trans (List.dropLast_sublist _), ?_, ?_⟩
  · rw [findCombosFromAnalysis_eq first, List.filter_map]
    rfl
  · intro block member
    obtain ⟨closed, valid⟩ := List.mem_filter.mp member
    have inside : block ∈ player.punishBlocks n := (List.dropLast_sublist _).subset closed
    have uniform : Uniform Attack.punishId block := uniform_of_mem_blocks inside
    obtain ⟨early, late, split⟩ := List.append_of_mem inside
    obtain ⟨whole, maximal⟩ := maximal_of_blocks_eq split
    exact ⟨_, rfl, valid, rfl, fun attack landed => AnalysisPlayer.comboOf_punish uniform landed,
      early.flatten, late.flatten, whole, maximal⟩

/-- Seven lethal hits, and one more hit in a second punish. -/
def twoPunishes [UndefinedConversion] : Analysis ExtRat :=
  gameOf (hits 0 7 ++ hits 1 1) [killedUp]

/-- The eight hits stand in front of the terminator. -/
theorem twoPunishes_first [UndefinedConversion] :
    (chosenPlayer twoPunishes).FirstFrameZero (hits 0 7 ++ hits 1 1).length := by
  -- Every hit lands on frame one.
  apply firstFrameZero_gameOf (by simp [hits, maxAttacks])
  simp [hits]

/-- Of two punishes just the first is returned, and it is valid. -/
theorem twoPunishes_sound : letI := zeroConversion
    ∃ selected : List (List (Attack ExtRat)),
      findCombosFromAnalysis twoPunishes =
        .ok (selected.map (chosenPlayer twoPunishes).comboOf) ∧
      selected = [hits 0 7] ∧
      ∀ block ∈ selected, isComboValid ((chosenPlayer twoPunishes).comboOf block) = true := by
  -- What is selected can be told from what is returned.
  let undefinedConversion := zeroConversion
  obtain ⟨selected, _, returned, sound⟩ := findCombosFromAnalysis_sound twoPunishes_first
  refine ⟨selected, returned, ?_, ?_⟩
  · -- The attacks of the combos that are returned are the blocks that were selected.
    have found : selected.map (chosenPlayer twoPunishes).comboOf =
        [{ attacks := hits 0 7, punish := killedUp }] :=
      Except.ok.inj (returned.symm.trans (firstPunish_found []))
    have attacks := congrArg (List.map Combo.attacks) found
    rw [List.map_map] at attacks
    exact (List.map_id selected).symm.trans attacks
  · intro block member
    obtain ⟨_, rfl, valid, _⟩ := sound block member
    exact valid

variable [DecidableEq F]

/-- Every valid combo of the blocks in front of an index is returned, once for each such block. -/
structure NoComboLost (player : AnalysisPlayer F) (n : Nat) (combos : List (Combo F)) : Prop where
  returned : ∀ before block after, player.attacksBefore n = before ++ block ++ after →
    Maximal Attack.punishId before block after → isComboValid (player.comboOf block) = true →
      player.comboOf block ∈ combos
  oncePerBlock : ∀ combo, isComboValid combo = true →
    combos.count combo = ((player.punishBlocks n).map player.comboOf).count combo

/-- Counting the combos of every block is enough to find each of them. -/
theorem NoComboLost.of_count {player : AnalysisPlayer F} {n : Nat} {combos : List (Combo F)}
    (count : ∀ combo, isComboValid combo = true →
      combos.count combo = ((player.punishBlocks n).map player.comboOf).count combo) :
    NoComboLost player n combos := by
  -- A maximal block is one of the blocks counted.
  refine ⟨?_, count⟩
  intro before block after whole maximal valid
  have member : block ∈ player.punishBlocks n := by
    rw [AnalysisPlayer.punishBlocks, whole, maximal.blocks_eq]
    simp
  apply List.count_pos_iff.mp
  rw [count _ valid]
  exact List.count_pos_iff.mpr (List.mem_map_of_mem member)

/-- Dropping the last block loses no valid combo exactly when that block has none. -/
theorem noComboLost_dropLast_iff (player : AnalysisPlayer F) (n : Nat) :
    NoComboLost player n
        (((player.punishBlocks n).dropLast.map player.comboOf).filter isComboValid) ↔
      ∀ last ∈ (player.punishBlocks n).getLast?, isComboValid (player.comboOf last) = false := by
  -- The counts of a valid combo differ by the last block alone.
  have counts : ∀ front last, player.punishBlocks n = front ++ [last] → ∀ combo,
      ((player.punishBlocks n).map player.comboOf).count combo =
        ((player.punishBlocks n).dropLast.map player.comboOf).count combo +
          [player.comboOf last].count combo := by
    intro front last split combo
    simp [split]
  constructor
  · intro complete last isLast
    obtain ⟨front, split⟩ := List.getLast?_eq_some_iff.mp isLast
    cases valid : isComboValid (player.comboOf last) with
    | false => rfl
    | true =>
      have count := complete.oncePerBlock _ valid
      rw [List.count_filter valid, counts front last split] at count
      simp at count
  · intro invalid
    apply NoComboLost.of_count
    intro combo valid
    rw [List.count_filter valid]
    rcases List.eq_nil_or_concat (player.punishBlocks n) with empty | ⟨front, last, split⟩
    · simp [empty]
    · rw [List.concat_eq_append] at split
      have other : player.comboOf last ≠ combo := by
        rintro rfl
        simp [invalid last (by simp [split])] at valid
      rw [counts front last split, List.count_singleton]
      simp [other]

/-- A combo is lost exactly when the block the terminator ends is a valid one. -/
theorem findCombosFromAnalysis_complete_iff {analysis : Analysis F} {n : Nat}
    (first : (chosenPlayer analysis).FirstFrameZero n) :
    ∃ combos, findCombosFromAnalysis analysis = .ok combos ∧
      (NoComboLost (chosenPlayer analysis) n combos ↔
        ∀ last ∈ ((chosenPlayer analysis).punishBlocks n).getLast?,
          isComboValid ((chosenPlayer analysis).comboOf last) = false) := by
  -- All blocks in front of the last one are closed and judged.
  exact ⟨_, findCombosFromAnalysis_eq first, noComboLost_dropLast_iff _ n⟩

/-- Of two punishes of which only the first is valid, nothing is lost. -/
theorem twoPunishes_complete : letI := zeroConversion
    ∃ combos : List (Combo ExtRat), findCombosFromAnalysis twoPunishes = .ok combos ∧
      NoComboLost (chosenPlayer twoPunishes) (hits 0 7 ++ hits 1 1).length combos := by
  let undefinedConversion := zeroConversion
  obtain ⟨combos, returned, complete⟩ := findCombosFromAnalysis_complete_iff twoPunishes_first
  refine ⟨combos, returned, complete.mpr ?_⟩
  -- The last block is the single hit, which is no combo.
  rw [AnalysisPlayer.punishBlocks, twoPunishes, attacksBefore_gameOf (by simp [hits, maxAttacks])]
  intro last isLast
  have single : last = hits 1 1 := by
    revert isLast
    have cut : (blocks Attack.punishId (hits 0 7 ++ hits 1 1)).getLast? = some (hits 1 1) := by
      decide +kernel
    simp [cut, eq_comm]
  subst single
  simp [isComboValid, Combo.totalMoveCount, AnalysisPlayer.comboOf, hits]

/-- A game that ends with a kill loses the combo of that kill. -/
theorem lastKill_lost : letI := zeroConversion
    ∃ combos : List (Combo ExtRat),
      findCombosFromAnalysis (gameOf (hits 0 7) [killedUp]) = .ok combos ∧
      ¬ NoComboLost (chosenPlayer (gameOf (hits 0 7) [killedUp])) (hits 0 7).length combos := by
  -- The only block is valid, and the terminator ends it.
  let undefinedConversion := zeroConversion
  have fits : (hits 0 7).length < maxAttacks := by simp [hits, maxAttacks]
  refine ⟨_, findCombosFromAnalysis_eq (firstFrameZero_gameOf fits (by simp [hits])), ?_⟩
  rw [noComboLost_dropLast_iff]
  intro invalid
  have only : (blocks Attack.punishId (hits 0 7)).getLast? = some (hits 0 7) := by decide +kernel
  have rejected := invalid (hits 0 7) (by
    rw [AnalysisPlayer.punishBlocks, attacksBefore_gameOf fits]
    exact only)
  have combo : (chosenPlayer (gameOf (hits 0 7) [killedUp])).comboOf (hits 0 7) =
      { attacks := hits 0 7, punish := killedUp } := by
    simp [AnalysisPlayer.comboOf, punishOf_gameOf, hits]
  rw [combo] at rejected
  revert rejected
  decide +kernel

end SlippCrunch
