import SlippCrunch.Basis.Blocks
import SlippCrunch.Combo.FindCombos

/-! The scan returns the valid combos of all maximal blocks but the last, if anything ends it at all. -/

namespace SlippCrunch

open Blocks

variable {F : Type}

/-- The punish table is longer than eight bits can count. -/
theorem punishId_inside (punishId : UInt8) : punishId.toNat < maxPunishes := by
  -- Eight bits count to 255.
  have small := punishId.toNat_lt
  unfold maxPunishes
  omega

namespace AnalysisPlayer

variable (player : AnalysisPlayer F)

/-- The punish an index of eight bits refers to, which always exists. -/
def punishOf (punishId : UInt8) : Punish F :=
  have inside := punishId_inside punishId
  player.punishes[punishId.toNat]

/-- Looking a punish up by an index of eight bits cannot fail. -/
@[simp] theorem punishAt_eq (punishId : UInt8) :
    player.punishAt punishId = .ok (player.punishOf punishId) := by
  simp [punishAt, punishOf, punishId_inside punishId]

/-- The attacks in front of an index. -/
def attacksBefore (n : Nat) : List (Attack F) := player.attacks.toList.take n

/-- One more attack in front of a larger index. -/
theorem attacksBefore_succ {i : Nat}
    (inside : i < maxAttacks) :
    player.attacksBefore (i + 1) = player.attacksBefore i ++ [player.attacks[i]] := by
  -- The next entry of the array ends the longer prefix.
  have bound : i < player.attacks.toList.length := by simpa using inside
  simp only [attacksBefore, List.take_succ_eq_append_getElem bound, Vector.getElem_toList]

/-- The index of the first attack at frame zero. -/
structure FirstFrameZero (n : Nat) : Prop where
  inside : n < maxAttacks
  frameZero : player.attacks[n].frame = 0
  before : ∀ i, (earlier : i < n) → 0 < player.attacks[i].frame

/-- An array that is not full of attacks has a first attack at frame zero. -/
theorem exists_firstFrameZero
    (stops : ¬ ∀ i, (inside : i < maxAttacks) → 0 < player.attacks[i].frame) :
    ∃ n, player.FirstFrameZero n := by
  classical
  -- The least index at frame zero is the first one.
  have some_zero : ∃ i, ∃ inside : i < maxAttacks, player.attacks[i].frame = 0 := by
    by_contra none_zero
    apply stops
    intro i inside
    apply Nat.pos_of_ne_zero
    intro zero
    exact none_zero ⟨i, inside, UInt32.toNat_inj.mp zero⟩
  obtain ⟨inside, frameZero⟩ := Nat.find_spec some_zero
  refine ⟨Nat.find some_zero, inside, frameZero, ?_⟩
  intro i earlier
  have bound : i < maxAttacks := by omega
  apply Nat.pos_of_ne_zero
  intro zero
  exact Nat.find_min some_zero earlier ⟨bound, UInt32.toNat_inj.mp zero⟩

/-- The maximal blocks of attacks with one punish, up to an index. -/
def punishBlocks (n : Nat) : List (List (Attack F)) :=
  blocks Attack.punishId (player.attacksBefore n)

variable [FloatOps F]

/-- The combo of a block: its attacks, and the punish they refer to. -/
def comboOf (block : List (Attack F)) : Combo F :=
  { attacks := block
    punish := match block.head? with
      | some attack => player.punishOf attack.punishId
      | none => default }

end AnalysisPlayer

variable [FloatOps F] {player : AnalysisPlayer F}

/-- What the loop's variables hold after a scan closed some blocks and left one open. -/
def ComboScan.ofBlocks (player : AnalysisPlayer F) (scan : Scan (Attack F)) : ComboScan F :=
  -- A rejected block leaves no trace in the combo that follows it.
  { combos := (scan.closed.map player.comboOf).filter isComboValid
    currCombo := { attacks := scan.current, punish := default } }

/-- Closing the open block appends its combo when it is valid. -/
theorem ComboScan.close_ofBlocks {scan : Scan (Attack F)} {last : Attack F}
    (isLast : scan.current.getLast? = some last) (uniform : Uniform Attack.punishId scan.current) :
    (ComboScan.ofBlocks player scan).close player =
      .ok (.ofBlocks player { closed := scan.closed ++ [scan.current], current := [] }) := by
  -- The punish is looked up by the last attack, whose index the first one shares.
  obtain ⟨first, isFirst⟩ : ∃ first, scan.current.head? = some first := by
    cases current : scan.current with
    | nil => simp [current] at isLast
    | cons first rest => exact ⟨first, rfl⟩
  have sameId : first.punishId = last.punishId :=
    uniform first (List.mem_of_head? isFirst) last (List.mem_of_getLast? isLast)
  have formed : player.comboOf scan.current =
      { attacks := scan.current, punish := player.punishOf last.punishId } := by
    simp [AnalysisPlayer.comboOf, isFirst, sameId]
  by_cases valid : isComboValid (player.comboOf scan.current) = true
  all_goals
    rw [formed] at valid
    simp [close, ofBlocks, Combo.back, isLast, formed, valid, Bind.bind, Except.bind, Pure.pure,
      Except.pure]
    rfl

/-- One iteration of the loop feeds one attack to the scan of blocks. -/
theorem ComboScan.feed_ofBlocks {scan : Scan (Attack F)}
    (uniform : Uniform Attack.punishId scan.current) (attack : Attack F) :
    (ComboScan.ofBlocks player scan).feed player attack =
      .ok (.ofBlocks player (scan.feed Attack.punishId attack)) := by
  -- The loop compares with the last attack of the open block, if it has any.
  cases isLast : scan.current.getLast? with
  | none =>
    have empty : scan.current = [] := List.getLast?_eq_none_iff.mp isLast
    simp [feed, endsBefore, ofBlocks, Scan.feed, empty, Bind.bind, Except.bind, Pure.pure,
      Except.pure]
  | some last =>
    have nonempty : scan.current ≠ [] := by
      intro empty
      simp [empty] at isLast
    have ends : (ofBlocks player scan).endsBefore attack =
        .ok (attack.punishId != last.punishId) := by
      simp [endsBefore, ofBlocks, Combo.back, isLast, nonempty, Bind.bind, Except.bind, Pure.pure,
        Except.pure]
    simp only [feed, AnalysisPlayer.punishAt_eq, ends, Bind.bind, Except.bind]
    by_cases same : attack.punishId = last.punishId
    · -- The attack lengthens the open block.
      simp [same, Scan.feed, isLast, ofBlocks, Pure.pure, Except.pure]
    · -- The attack opens a new block behind the closed one.
      rw [if_pos (by simpa using same), close_ofBlocks isLast uniform]
      simp [same, Scan.feed, isLast, ofBlocks, Pure.pure, Except.pure]

/-- What the loop's variables hold when it reaches an index. -/
def ComboScan.upTo (player : AnalysisPlayer F) (i : Nat) : ComboScan F :=
  .ofBlocks player ((player.attacksBefore i).foldl (Scan.feed Attack.punishId) {})

/-- What the loop's variables hold once its iterations have passed the attacks in front of an index. -/
def ComboScan.reached (player : AnalysisPlayer F) (i : Nat) : Except Fault (ComboScan F) :=
  (player.attacksBefore i).foldlM (ComboScan.feed player) { combos := [], currCombo := default }

/-- The combos that the iteration at an index adds to those kept before. -/
def ComboScan.keptAt (player : AnalysisPlayer F) (i : Nat) : List (Combo F) :=
  match reached player i, reached player (i + 1) with
  | .ok before, .ok after => after.combos.drop before.combos.length
  -- No iteration makes a bad access, so this case does not occur.
  | _, _ => []

/-- The iterations in front of an index leave the variables as they were said to be there. -/
theorem ComboScan.reached_eq (i : Nat) : reached player i = .ok (.upTo player i) := by
  -- Each attack is fed to the blocks of those in front of it.
  have general : ∀ items : List (Attack F),
      items.foldlM (ComboScan.feed player) { combos := [], currCombo := default } =
        .ok (.ofBlocks player (items.foldl (Scan.feed Attack.punishId) {})) := by
    intro items
    induction items using List.reverseRecOn with
    | nil => rfl
    | append_singleton items item ih =>
      rw [List.foldlM_append, ih, List.foldl_append]
      simp only [List.foldlM_cons, List.foldlM_nil, Bind.bind, Except.bind,
        feed_ofBlocks (Scan.uniform_foldl_feed items)]
      rfl
  exact general (player.attacksBefore i)

/-- What an iteration keeps is what its variables hold behind it and did not in front of it. -/
theorem ComboScan.keptAt_eq (i : Nat) :
    keptAt player i = (upTo player (i + 1)).combos.drop (upTo player i).combos.length := by
  simp only [keptAt, reached_eq]

/-- At an attack the loop goes on, with the variables of the next index. -/
theorem scanAttacks_next {i : Nat} (inside : i < maxAttacks)
    (landed : 0 < player.attacks[i].frame) :
    scanAttacks player i (.upTo player i) = scanAttacks player (i + 1) (.upTo player (i + 1)) := by
  -- Feeding the attack makes the variables those of the next index.
  rw [scanAttacks, dif_pos inside]
  simp only [if_pos landed, ComboScan.upTo, ComboScan.feed_ofBlocks (Scan.uniform_foldl_feed _),
    Bind.bind, Except.bind]
  rw [player.attacksBefore_succ inside, List.foldl_append]
  rfl

/-- From an index with the first attack at frame zero still ahead, the loop runs up to that one. -/
theorem scanAttacks_upTo {n : Nat} (first : player.FirstFrameZero n) :
    ∀ remaining i, i + remaining = n →
      scanAttacks player i (.upTo player i) = .ok (.upTo player n) := by
  -- At every index the variables hold the blocks of the attacks in front of it.
  intro remaining
  induction remaining with
  | zero =>
    intro i reached
    have same : i = n := by omega
    subst same
    have inside := first.inside
    have stops : ¬ (0 : UInt32) < player.attacks[i].frame := by simp [first.frameZero]
    rw [scanAttacks, dif_pos inside]
    simp only [if_neg stops]
  | succ remaining ih =>
    intro i ahead
    have bound := first.inside
    have inside : i < maxAttacks := by omega
    rw [scanAttacks_next inside (first.before i (by omega))]
    exact ih (i + 1) (by omega)

/-- One iteration of the loop makes no bad access, whatever its variables hold. -/
theorem ComboScan.feed_total (scan : ComboScan F) (currAttack : Attack F) :
    ∃ next, scan.feed player currAttack = .ok next := by
  -- The last attack is only asked for where there is one, and its punish always exists.
  cases isLast : scan.currCombo.attacks.getLast? with
  | none =>
    have empty : scan.currCombo.attacks = [] := List.getLast?_eq_none_iff.mp isLast
    simp [feed, endsBefore, empty, Bind.bind, Except.bind, Pure.pure, Except.pure]
  | some last =>
    have nonempty : scan.currCombo.attacks ≠ [] := by
      intro empty
      simp [empty] at isLast
    have ends : scan.endsBefore currAttack = .ok (currAttack.punishId != last.punishId) := by
      simp [endsBefore, Combo.back, isLast, nonempty, Bind.bind, Except.bind, Pure.pure,
        Except.pure]
    simp only [feed, AnalysisPlayer.punishAt_eq, ends, Bind.bind, Except.bind]
    by_cases same : currAttack.punishId = last.punishId
    · simp [same, Pure.pure, Except.pure]
    · simp [same, close, Combo.back, isLast, Bind.bind, Except.bind, Pure.pure, Except.pure]

variable (player) in
/-- From any index the loop ends at an attack at frame zero, or else behind the whole array. -/
theorem scanAttacks_ends : ∀ remaining i (scan : ComboScan F), i + remaining = maxAttacks →
    (∃ final, scanAttacks player i scan = .ok final ∧
      ∃ j, ∃ inside : j < maxAttacks, player.attacks[j].frame = 0) ∨
    (scanAttacks player i scan = .error (.attacksOutOfBounds maxAttacks) ∧
      ∀ j, i ≤ j → (inside : j < maxAttacks) → 0 < player.attacks[j].frame) := by
  -- An iteration at a positive frame always succeeds, so only the index matters.
  intro remaining
  induction remaining with
  | zero =>
    intro i scan reached
    have behind : i = maxAttacks := by omega
    subst behind
    -- Behind the last entry the condition is evaluated once more.
    refine .inr ⟨?_, ?_⟩
    · rw [scanAttacks, dif_neg (Nat.lt_irrefl _)]
    · intro j atLeast inside
      omega
  | succ remaining ih =>
    intro i scan ahead
    have inside : i < maxAttacks := by omega
    rw [scanAttacks, dif_pos inside]
    by_cases landed : 0 < player.attacks[i].frame
    · obtain ⟨next, fed⟩ : ∃ next, scan.feed player player.attacks[i] = .ok next :=
        scan.feed_total player.attacks[i]
      simp only [if_pos landed, fed, Bind.bind, Except.bind]
      rcases ih (i + 1) next (by omega) with ended | ⟨left, full⟩
      · exact .inl ended
      · refine .inr ⟨left, ?_⟩
        -- The entry just passed joins the ones behind it.
        intro j atLeast insideJ
        rcases Nat.eq_or_lt_of_le atLeast with same | later
        · subst same
          exact landed
        · exact full j later insideJ
    · simp only [if_neg landed]
      refine .inl ⟨scan, rfl, i, inside, ?_⟩
      -- A frame that is not positive is zero.
      have zero : player.attacks[i].frame ≤ 0 := UInt32.not_lt.mp landed
      exact UInt32.le_zero_iff.mp zero

/-- The loop starts with no block at all. -/
theorem findCombosFromAnalysis_start (analysis : Analysis F) :
    findCombosFromAnalysis analysis =
      (scanAttacks (chosenPlayer analysis) 0 (.upTo (chosenPlayer analysis) 0)).map
        ComboScan.combos := rfl

/-- A full array of attacks makes the scan leave it. -/
theorem findCombosFromAnalysis_overrun {analysis : Analysis F}
    (landed : ∀ i, (inside : i < maxAttacks) →
      0 < (chosenPlayer analysis).attacks[i].frame) :
    findCombosFromAnalysis analysis = .error (.attacksOutOfBounds maxAttacks) := by
  -- The loop ends at a frame zero or behind the array, and there is no frame zero.
  rw [findCombosFromAnalysis_start]
  rcases scanAttacks_ends (chosenPlayer analysis) maxAttacks 0 (.upTo (chosenPlayer analysis) 0)
    (by omega) with ⟨_, _, i, inside, zero⟩ | ⟨left, _⟩
  · -- No entry is at frame zero.
    have positive := landed i inside
    simp [zero] at positive
  · rw [left]
    rfl

/-- The scan returns the valid combos of all blocks except the last, which it never closes. -/
theorem findCombosFromAnalysis_eq {analysis : Analysis F} {n : Nat}
    (first : (chosenPlayer analysis).FirstFrameZero n) :
    findCombosFromAnalysis analysis =
      .ok ((((chosenPlayer analysis).punishBlocks n).dropLast.map
        (chosenPlayer analysis).comboOf).filter isComboValid) := by
  -- The loop stops with the last block still open.
  rw [findCombosFromAnalysis_start, scanAttacks_upTo first n 0 (by omega), ComboScan.upTo,
    Scan.foldl_feed]
  rfl

/-- The scan returns something exactly when an attack at frame zero ends it. -/
theorem findCombosFromAnalysis_ok_iff (analysis : Analysis F) :
    (∃ combos, findCombosFromAnalysis analysis = .ok combos) ↔
      ∃ n, (chosenPlayer analysis).FirstFrameZero n := by
  -- The only other way to go is out of a full array.
  constructor
  · intro ⟨combos, returned⟩
    apply AnalysisPlayer.exists_firstFrameZero
    intro full
    simp [findCombosFromAnalysis_overrun full] at returned
  · intro ⟨n, first⟩
    exact ⟨_, findCombosFromAnalysis_eq first⟩

/-- The combo of a block carries the punish that every attack of the block refers to. -/
theorem AnalysisPlayer.comboOf_punish {block : List (Attack F)}
    (uniform : Uniform Attack.punishId block) {attack : Attack F} (member : attack ∈ block) :
    (player.comboOf block).punish = player.punishOf attack.punishId := by
  -- The first attack decides, and all others share its index.
  cases block with
  | nil => simp at member
  | cons first rest =>
    have same := uniform first (by simp) attack member
    simp [comboOf, same]

/-- A game in which the tagged player stands first, and the other one lands nothing. -/
def gameOf (attacks : List (Attack F)) (punishes : List (Punish F)) : Analysis F :=
  let player := fun tagCode attacks punishes =>
    { tagCode, attacks := filled maxAttacks attacks, punishes := filled maxPunishes punishes }
  { ap := #v[player "YOYO#278" attacks punishes, player "" [] []] }

section gameOf

variable {attacks : List (Attack F)} {punishes : List (Punish F)}

/-- The tagged player is the one whose attacks are used. -/
theorem chosenPlayer_gameOf : chosenPlayer (gameOf attacks punishes) =
    { tagCode := "YOYO#278", attacks := filled maxAttacks attacks
      punishes := filled maxPunishes punishes } := by
  simp [chosenPlayer, portToUse, gameOf]

/-- Attacks at positive frames, fewer than the table holds, are followed by one at frame zero. -/
theorem firstFrameZero_gameOf (fits : attacks.length < maxAttacks)
    (landed : ∀ attack ∈ attacks, 0 < attack.frame) :
    (chosenPlayer (gameOf attacks punishes)).FirstFrameZero attacks.length := by
  -- The entry behind the given ones still has the initial frame.
  rw [chosenPlayer_gameOf]
  refine ⟨fits, ?_, ?_⟩
  · simp [filled]
    rfl
  · intro i earlier
    simpa [filled, earlier] using landed _ (List.getElem_mem earlier)

/-- The attacks in front of the terminator are the given ones. -/
theorem attacksBefore_gameOf (fits : attacks.length < maxAttacks) :
    (chosenPlayer (gameOf attacks punishes)).attacksBefore attacks.length = attacks := by
  -- Both lists agree entry by entry.
  rw [chosenPlayer_gameOf]
  apply List.ext_getElem
  · simp only [AnalysisPlayer.attacksBefore, List.length_take, Vector.length_toList]
    omega
  · intro i _ inside
    simp [AnalysisPlayer.attacksBefore, filled, inside]

/-- The punish at an index is the given one, or an initial one behind the given ones. -/
theorem punishOf_gameOf (punishId : UInt8) :
    (chosenPlayer (gameOf attacks punishes)).punishOf punishId =
      punishes.getD punishId.toNat default := by
  rw [chosenPlayer_gameOf]
  simp [AnalysisPlayer.punishOf, filled]

end gameOf

/-- A number of hits of ten percent each, all in one punish. -/
def hits [UndefinedConversion] (punishId : UInt8) (count : Nat) : List (Attack ExtRat) :=
  List.replicate count { (default : Attack ExtRat) with punishId, frame := 1, damage := .finite 10 }

/-- The record of a punish that ended with a kill upwards. -/
def killedUp [UndefinedConversion] : Punish ExtRat :=
  { (default : Punish ExtRat) with killDir := Dir.up.value }

/-- Of seven lethal hits and one more hit in a second punish, the seven are found. -/
theorem firstPunish_found (rest : List (Punish ExtRat)) : letI := zeroConversion
    findCombosFromAnalysis (gameOf (hits 0 7 ++ hits 1 1) (killedUp :: rest)) =
      .ok [{ attacks := hits 0 7, punish := killedUp }] := by
  let undefinedConversion := zeroConversion
  -- The second punish only serves to close the first one.
  have cut : Blocks.blocks Attack.punishId (hits 0 7 ++ hits 1 1) = [hits 0 7, hits 1 1] := by
    decide +kernel
  have fits : (hits 0 7 ++ hits 1 1).length < maxAttacks := by simp [hits, maxAttacks]
  set player := chosenPlayer (gameOf (hits 0 7 ++ hits 1 1) (killedUp :: rest))
  have closed : player.punishBlocks (hits 0 7 ++ hits 1 1).length = [hits 0 7, hits 1 1] := by
    rw [AnalysisPlayer.punishBlocks, attacksBefore_gameOf fits, cut]
  have combo : player.comboOf (hits 0 7) = { attacks := hits 0 7, punish := killedUp } := by
    simp [player, AnalysisPlayer.comboOf, punishOf_gameOf, hits]
  have valid : isComboValid { attacks := hits 0 7, punish := killedUp } = true := by
    decide +kernel
  rw [findCombosFromAnalysis_eq (firstFrameZero_gameOf fits (by simp [hits]))]
  show Except.ok (((player.punishBlocks _).dropLast.map player.comboOf).filter isComboValid) = _
  rw [closed]
  simp [combo, valid]

/-- The scan makes no bad access exactly when the attacks hold a frame zero, and else just one. -/
theorem findCombosFromAnalysis_inside_iff (analysis : Analysis F) :
    ((∀ fault, findCombosFromAnalysis analysis ≠ .error fault) ↔
      ∃ i, ∃ inside : i < maxAttacks, (chosenPlayer analysis).attacks[i].frame = 0) ∧
    ∀ fault, findCombosFromAnalysis analysis = .error fault →
      fault = .attacksOutOfBounds maxAttacks := by
  rw [findCombosFromAnalysis_start]
  -- The loop ends inside the array, or reads the entry behind it.
  rcases scanAttacks_ends (chosenPlayer analysis) maxAttacks 0 (.upTo (chosenPlayer analysis) 0)
    (by omega) with ⟨final, ended, some_zero⟩ | ⟨left, full⟩
  · rw [ended]
    exact ⟨⟨fun _ => some_zero, fun _ fault => nofun⟩, fun fault => nofun⟩
  · rw [left]
    refine ⟨⟨fun inside => absurd rfl (inside _), ?_⟩, ?_⟩
    · -- Every entry of a full array is at a positive frame.
      intro ⟨i, inside, zero⟩
      have landed := full i (Nat.zero_le i) inside
      simp [zero] at landed
    · intro fault same
      cases same
      rfl

/-- A table full of attacks on frame one is left by the loop's condition. -/
theorem fullTable_overrun : letI := zeroConversion
    findCombosFromAnalysis (gameOf (hits 0 maxAttacks) [killedUp]) =
      .error (.attacksOutOfBounds maxAttacks) := by
  let undefinedConversion := zeroConversion
  apply findCombosFromAnalysis_overrun
  -- Every entry of the table is one of the hits.
  intro i inside
  rw [chosenPlayer_gameOf]
  simp [filled, hits]

end SlippCrunch
