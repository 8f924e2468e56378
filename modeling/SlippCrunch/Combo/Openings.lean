import SlippCrunch.Combo.ScanLaws

/-! Openings numbered beyond eight bits: blocks are still cut apart, but looked up modulo 256. -/

namespace SlippCrunch

open Blocks

variable {F : Type}

/-- What the analyzer leaves of a player whose openings it numbered from zero in order. -/
structure NumberedOpenings (player : AnalysisPlayer F) (openings : List (List (Attack F))) :
    Prop where
  few : openings.length ≤ maxPunishes
  someAttack : ∀ opening ∈ openings, opening ≠ []
  -- The opening's number is stored in a field of eight bits.
  numbered : ∀ k : Fin openings.length, ∀ attack ∈ openings[k],
    attack.punishId = UInt8.ofNat k
  landed : ∀ attack ∈ openings.flatten, 0 < attack.frame
  -- The attacks fill the array from the front, and entries behind them keep frame zero.
  stored : player.attacksBefore openings.flatten.length = openings.flatten
  ended : ∀ inside : openings.flatten.length < maxAttacks,
    player.attacks[openings.flatten.length].frame = 0

namespace NumberedOpenings

variable {player : AnalysisPlayer F} {openings : List (List (Attack F))}

/-- The punish record the analyzer stored for an opening. -/
def record (numbered : NumberedOpenings player openings) (k : Fin openings.length) : Punish F :=
  have inside := Nat.lt_of_lt_of_le k.isLt numbered.few
  player.punishes[k.val]

/-- The opening whose number has the same last eight bits. -/
def aliased (k : Fin openings.length) : Fin openings.length :=
  ⟨k.val % 256, Nat.lt_of_le_of_lt (Nat.mod_le _ _) k.isLt⟩

/-- The combo the scan forms of an opening takes the record its number is aliased to. -/
theorem comboOf_eq [FloatOps F] (numbered : NumberedOpenings player openings)
    (k : Fin openings.length) :
    player.comboOf openings[k] =
      { attacks := openings[k], punish := numbered.record (aliased k) } := by
  -- Storing the number in eight bits kept its remainder.
  have nonempty : openings[k] ≠ [] := numbered.someAttack _ (List.getElem_mem _)
  obtain ⟨first, rest, split⟩ := List.exists_cons_of_ne_nil nonempty
  have stored : first.punishId = UInt8.ofNat k := numbered.numbered k first (by simp [split])
  simp [AnalysisPlayer.comboOf, split, stored, AnalysisPlayer.punishOf, record, aliased]

/-- Each of the first openings is one block of their attacks, however many there are. -/
theorem blocks_take (numbered : NumberedOpenings player openings) (count : Nat) :
    blocks Attack.punishId (openings.take count).flatten = openings.take count := by
  -- Neighbouring numbers differ by one, which differs modulo 256 as well.
  apply blocks_flatten
  · intro empty
    exact numbered.someAttack [] (List.mem_of_mem_take empty) rfl
  · intro opening member first inFirst second inSecond
    obtain ⟨k, bound, rfl⟩ := List.mem_iff_getElem.mp (List.mem_of_mem_take member)
    rw [numbered.numbered ⟨k, bound⟩ first inFirst, numbered.numbered ⟨k, bound⟩ second inSecond]
  · rw [List.isChain_iff_getElem]
    intro k bound
    rw [List.length_take] at bound
    rw [List.getElem_take, List.getElem_take]
    have before : openings[k] ≠ [] := numbered.someAttack _ (List.getElem_mem _)
    have after : openings[k + 1] ≠ [] := numbered.someAttack _ (List.getElem_mem _)
    refine ⟨before, after, ?_⟩
    rw [numbered.numbered ⟨k, by omega⟩ _ (List.getLast_mem before),
      numbered.numbered ⟨k + 1, by omega⟩ _ (List.head_mem after)]
    intro same
    have numbers := congrArg UInt8.toNat same
    simp only [UInt8.toNat_ofNat'] at numbers
    omega

/-- Each opening is one block of the game. -/
theorem punishBlocks_eq (numbered : NumberedOpenings player openings) :
    player.punishBlocks openings.flatten.length = openings := by
  -- The blocks of the first openings are these, and taking all of them leaves none out.
  have all := numbered.blocks_take openings.length
  rwa [List.take_length, ← numbered.stored] at all

/-- Where a later opening begins, the attacks in front are those of the openings before it. -/
theorem attacksBefore_take (numbered : NumberedOpenings player openings) (count : Nat) :
    player.attacksBefore (openings.take count).flatten.length = (openings.take count).flatten := by
  -- The stored attacks are those of the first openings and those of the others behind them.
  have split : openings.flatten = (openings.take count).flatten ++ (openings.drop count).flatten := by
    rw [← List.flatten_append, List.take_append_drop]
  have fewer : (openings.take count).flatten.length ≤ openings.flatten.length := by
    rw [split, List.length_append]
    omega
  have stored := congrArg (List.take (openings.take count).flatten.length) numbered.stored
  rw [AnalysisPlayer.attacksBefore, List.take_take, Nat.min_eq_left fewer] at stored
  rw [AnalysisPlayer.attacksBefore, stored]
  conv_lhs => rw [split]
  exact List.take_left

/-- The attack behind an opening that another one follows is the first of that one. -/
theorem attacksBefore_next (numbered : NumberedOpenings player openings) {k : Nat}
    (another : k + 1 < openings.length) :
    ∃ attack, attack.punishId = UInt8.ofNat (k + 1) ∧
      player.attacksBefore ((openings.take (k + 1)).flatten.length + 1) =
        (openings.take (k + 1)).flatten ++ [attack] := by
  have nonempty : openings[k + 1] ≠ [] := numbered.someAttack _ (List.getElem_mem _)
  obtain ⟨first, rest, isNext⟩ := List.exists_cons_of_ne_nil nonempty
  refine ⟨first, numbered.numbered ⟨k + 1, another⟩ first (by simp [isNext]), ?_⟩
  -- The next opening comes whole, and starts with that attack.
  have longer := numbered.attacksBefore_take (k + 2)
  have split : (openings.take (k + 2)).flatten = (openings.take (k + 1)).flatten ++ first :: rest := by
    rw [List.take_succ_eq_append_getElem another, List.flatten_append, isNext]
    simp
  have fewer : (openings.take (k + 1)).flatten.length + 1 ≤ (openings.take (k + 2)).flatten.length := by
    rw [split, List.length_append, List.length_cons]
    omega
  have stored := congrArg (List.take ((openings.take (k + 1)).flatten.length + 1)) longer
  rw [AnalysisPlayer.attacksBefore, List.take_take, Nat.min_eq_left fewer, split] at stored
  rw [AnalysisPlayer.attacksBefore, stored, List.take_append]
  simp

/-- Entries of the array in front of the terminator are attacks of the openings. -/
theorem landed_at (numbered : NumberedOpenings player openings) {i : Nat}
    (earlier : i < openings.flatten.length) (inside : i < maxAttacks) :
    0 < player.attacks[i].frame := by
  -- The entry is the attack of the openings that stands at the same index.
  have listed : i < (player.attacksBefore openings.flatten.length).length := by
    rw [numbered.stored]
    exact earlier
  have entry : openings.flatten[i] = player.attacks[i] := by
    rw [← List.getElem_of_eq numbered.stored listed]
    simp only [AnalysisPlayer.attacksBefore, List.getElem_take, Vector.getElem_toList]
  rw [← entry]
  exact numbered.landed _ (List.getElem_mem earlier)

/-- With the terminator inside the array, the attacks end where the openings do. -/
theorem firstFrameZero (numbered : NumberedOpenings player openings)
    (inside : openings.flatten.length < maxAttacks) :
    player.FirstFrameZero openings.flatten.length :=
  ⟨inside, numbered.ended inside, fun _ earlier => numbered.landed_at earlier (by omega)⟩

variable [FloatOps F]

/-- The combos the scan keeps of an opening, in the iteration that meets the attack behind it. -/
def keptOf (_numbered : NumberedOpenings player openings) (k : Fin openings.length) :
    List (Combo F) :=
  ComboScan.keptAt player (openings.take (k + 1)).flatten.length

/-- What the scan keeps of an opening is its combo, if that one is valid. -/
theorem keptOf_eq (numbered : NumberedOpenings player openings) (k : Fin openings.length)
    (another : k.val + 1 < openings.length) :
    numbered.keptOf k = [player.comboOf openings[k]].filter isComboValid := by
  obtain ⟨attack, itsNumber, longer⟩ := numbered.attacksBefore_next another
  -- In front of that attack all openings before this one are closed, and this one is open.
  have current : (openings.take (k.val + 1)).getLast? = some openings[k] := by
    rw [List.take_succ_eq_append_getElem k.isLt, List.getLast?_concat]
    rfl
  have closed : (openings.take (k.val + 1)).dropLast = openings.take k := by
    rw [List.take_succ_eq_append_getElem k.isLt, List.dropLast_concat]
  have nonempty : openings[k] ≠ [] := numbered.someAttack _ (List.getElem_mem _)
  have isLast := List.getLast?_eq_some_getLast nonempty
  -- The attack carries another number than this opening, which closes it.
  have other : attack.punishId ≠ (openings[k].getLast nonempty).punishId := by
    rw [itsNumber, numbered.numbered k _ (List.getLast_mem nonempty)]
    intro same
    have numbers := congrArg UInt8.toNat same
    simp only [UInt8.toNat_ofNat'] at numbers
    omega
  have before := numbered.attacksBefore_take (k.val + 1)
  rw [keptOf, ComboScan.keptAt_eq, ComboScan.upTo, ComboScan.upTo, longer, before,
    List.foldl_append, Scan.foldl_feed, numbered.blocks_take, current, closed]
  simp only [List.foldl_cons, List.foldl_nil, Scan.feed, Option.getD_some, isLast, if_neg other,
    ComboScan.ofBlocks, List.map_append, List.filter_append, List.map_cons, List.map_nil,
    List.drop_left]

/--
Every returned combo was kept of some opening, with that opening's attacks and record.

Which opening that is, is told by the iteration that kept the combo, not by what the combo holds.
-/
structure OwnPunish {analysis : Analysis F}
    (numbered : NumberedOpenings (chosenPlayer analysis) openings) : Prop where
  returned : findCombosFromAnalysis analysis =
    .ok ((List.finRange openings.length).dropLast.flatMap numbered.keptOf)
  -- The validity of the combo is thereby decided on that record too.
  own : ∀ k : Fin openings.length, k.val + 1 < openings.length → ∀ combo ∈ numbered.keptOf k,
    combo.attacks = openings[k] ∧ combo.punish = numbered.record k ∧
      isComboValid { attacks := openings[k], punish := numbered.record k } = true

/-- Looking a valid combo's record up in eight bits makes no difference, the last opening aside. -/
def LookupAgrees (numbered : NumberedOpenings player openings) : Prop :=
  ∀ k : Fin openings.length, k.val + 1 < openings.length →
    isComboValid { attacks := openings[k], punish := numbered.record (aliased k) } = true →
      numbered.record (aliased k) = numbered.record k

/-- What is kept of the openings is what the scan returns, unless it leaves the array. -/
theorem returned_eq {analysis : Analysis F}
    (numbered : NumberedOpenings (chosenPlayer analysis) openings)
    (inside : openings.flatten.length < maxAttacks) :
    findCombosFromAnalysis analysis =
      .ok ((List.finRange openings.length).dropLast.flatMap numbered.keptOf) := by
  -- Both go through all openings but the last.
  have each : ∀ k ∈ (List.finRange openings.length).dropLast, numbered.keptOf k =
      [(chosenPlayer analysis).comboOf openings[k]].filter isComboValid := by
    intro k member
    apply numbered.keptOf_eq
    obtain ⟨i, bound, rfl⟩ := List.mem_iff_getElem.mp member
    rw [List.length_dropLast, List.length_finRange] at bound
    simp only [List.getElem_dropLast, List.getElem_finRange, Fin.val_cast]
    omega
  have all : (List.finRange openings.length).dropLast.map (fun k => openings[k]) =
      openings.dropLast := by
    rw [List.map_dropLast]
    congr 1
    apply List.ext_getElem <;> simp
  rw [findCombosFromAnalysis_eq (numbered.firstFrameZero inside), numbered.punishBlocks_eq,
    List.flatMap_congr each, ← all]
  congr 1
  induction (List.finRange openings.length).dropLast with
  | nil => rfl
  | cons k rest ih =>
    rw [List.flatMap_cons, List.map_cons, List.map_cons, ← List.singleton_append,
      List.filter_append, ih]

/-- The closed openings carry their own punishes exactly when the lookup makes no difference. -/
theorem own_iff (numbered : NumberedOpenings player openings) :
    (∀ k : Fin openings.length, k.val + 1 < openings.length → ∀ combo ∈ numbered.keptOf k,
      combo.attacks = openings[k] ∧ combo.punish = numbered.record k ∧
        isComboValid { attacks := openings[k], punish := numbered.record k } = true) ↔
      numbered.LookupAgrees := by
  constructor
  · intro own k another valid
    -- A valid combo is kept, so its record is the opening's.
    have kept : player.comboOf openings[k] ∈ numbered.keptOf k := by
      rw [numbered.keptOf_eq k another, List.mem_filter, numbered.comboOf_eq]
      exact ⟨List.mem_singleton_self _, valid⟩
    have punish := (own k another _ kept).2.1
    rwa [numbered.comboOf_eq] at punish
  · intro agrees k another combo member
    rw [numbered.keptOf_eq k another, List.mem_filter, List.mem_singleton, numbered.comboOf_eq]
      at member
    obtain ⟨rfl, valid⟩ := member
    have same := agrees k another valid
    exact ⟨rfl, same, same ▸ valid⟩

/-- Among at most 256 openings no two numbers are confused. -/
theorem lookupAgrees_of_short (numbered : NumberedOpenings player openings)
    (short : openings.length ≤ 256) : numbered.LookupAgrees := by
  intro k _ _
  -- Every number below 256 is its own remainder.
  have here : aliased k = k := Fin.ext (Nat.mod_eq_of_lt (Nat.lt_of_lt_of_le k.isLt short))
  rw [here]

/-- A game filled in from numbered openings is one the analyzer can leave. -/
theorem of_gameOf {punishes : List (Punish F)} (few : openings.length ≤ maxPunishes)
    (someAttack : ∀ opening ∈ openings, opening ≠ [])
    (numbered : ∀ k : Fin openings.length, ∀ attack ∈ openings[k], attack.punishId = UInt8.ofNat k)
    (landed : ∀ attack ∈ openings.flatten, 0 < attack.frame)
    (fits : openings.flatten.length < maxAttacks) :
    NumberedOpenings (chosenPlayer (gameOf openings.flatten punishes)) openings :=
  { few, someAttack, numbered, landed, stored := attacksBefore_gameOf fits
    ended := fun _ => (firstFrameZero_gameOf fits landed).frameZero }

/-- The record of an opening is the given one, or an initial one behind the given ones. -/
theorem record_gameOf {attacks : List (Attack F)} {punishes : List (Punish F)}
    (numbered : NumberedOpenings (chosenPlayer (gameOf attacks punishes)) openings)
    (k : Fin openings.length) : numbered.record k = punishes.getD k default := by
  simp [record, chosenPlayer, portToUse, gameOf, filled]

end NumberedOpenings

variable [FloatOps F]

/-- Combos are returned with their own punishes exactly when the array ends and eight bits suffice. -/
theorem findCombosFromAnalysis_ownPunish_iff {analysis : Analysis F}
    {openings : List (List (Attack F))}
    (numbered : NumberedOpenings (chosenPlayer analysis) openings) :
    numbered.OwnPunish ↔ openings.flatten.length < maxAttacks ∧ numbered.LookupAgrees := by
  constructor
  · intro own
    refine ⟨?_, numbered.own_iff.mp own.own⟩
    -- A full array makes the scan leave it before anything is returned.
    by_contra full
    have overrun := findCombosFromAnalysis_overrun
      fun i bound => numbered.landed_at (by omega) bound
    rw [own.returned] at overrun
    cases overrun
  · rintro ⟨inside, agrees⟩
    exact ⟨numbered.returned_eq inside, numbered.own_iff.mpr agrees⟩

/-- Single hits numbered in order, except for a long string of hits at number 256. -/
def countedOpenings [UndefinedConversion] (count : Nat) : List (List (Attack ExtRat)) :=
  (List.range count).map fun k => hits (UInt8.ofNat k) (if k = 256 then 7 else 1)

theorem countedOpenings_getElem [UndefinedConversion] {count : Nat}
    (k : Fin (countedOpenings count).length) :
    (countedOpenings count)[k] = hits (UInt8.ofNat k) (if k.val = 256 then 7 else 1) := by
  change (countedOpenings count)[k.val] = _
  simp only [countedOpenings, List.getElem_map, List.getElem_range]

/-- The counted openings are numbered as the analyzer numbers them. -/
theorem countedOpenings_numbered [UndefinedConversion] {count : Nat} (few : count ≤ maxPunishes)
    (fits : (countedOpenings count).flatten.length < maxAttacks) :
    NumberedOpenings (chosenPlayer (gameOf (countedOpenings count).flatten [killedUp]))
      (countedOpenings count) := by
  -- Every opening is a number of hits with the lower eight bits of its own number.
  apply NumberedOpenings.of_gameOf _ _ _ _ fits
  · simpa [countedOpenings] using few
  · intro opening member
    obtain ⟨k, _, rfl⟩ := List.mem_map.mp member
    by_cases long : k = 256 <;> simp [hits, long]
  · intro k attack member
    rw [countedOpenings_getElem] at member
    rw [List.eq_of_mem_replicate member]
  · intro attack member
    obtain ⟨opening, inside, landed⟩ := List.mem_flatten.mp member
    obtain ⟨k, _, rfl⟩ := List.mem_map.mp inside
    rw [List.eq_of_mem_replicate landed]
    exact UInt32.zero_lt_one

/-- In a game of two openings every combo carries its own punish. -/
theorem twoOpenings_ownPunish : letI := zeroConversion
    ∃ numbered : NumberedOpenings
        (chosenPlayer (gameOf (countedOpenings 2).flatten [killedUp])) (countedOpenings 2),
      numbered.OwnPunish := by
  -- Two openings are too few for a number to come twice.
  let undefinedConversion := zeroConversion
  have fits : (countedOpenings 2).flatten.length < maxAttacks := by decide +kernel
  have numbered := countedOpenings_numbered (show 2 ≤ maxPunishes by decide) fits
  exact ⟨numbered, (findCombosFromAnalysis_ownPunish_iff numbered).mpr
    ⟨fits, numbered.lookupAgrees_of_short (by decide +kernel)⟩⟩

/-- In a game of 258 openings the long one is returned as a kill that another opening scored. -/
theorem manyOpenings_foreignPunish : letI := zeroConversion
    ∃ numbered : NumberedOpenings
        (chosenPlayer (gameOf (countedOpenings 258).flatten [killedUp])) (countedOpenings 258),
      ¬ numbered.OwnPunish := by
  -- Number 256 is stored as zero, the number of the only opening that killed.
  let undefinedConversion := zeroConversion
  have fits : (countedOpenings 258).flatten.length < maxAttacks := by decide +kernel
  have numbered := countedOpenings_numbered (by decide) fits
  refine ⟨numbered, fun own => ?_⟩
  have agrees := numbered.own_iff.mp own.own
  have counted : (countedOpenings 258).length = 258 := by simp [countedOpenings]
  obtain ⟨long, isLong⟩ : ∃ k : Fin (countedOpenings 258).length, k.val = 256 :=
    ⟨⟨256, by omega⟩, rfl⟩
  have longHits : (countedOpenings 258)[long] = hits 0 7 := by
    rw [countedOpenings_getElem, isLong]
    rfl
  have low : (NumberedOpenings.aliased long).val = 0 := by
    simp [NumberedOpenings.aliased, isLong]
  have records := agrees long (by omega)
  rw [longHits, numbered.record_gameOf, numbered.record_gameOf, low, isLong] at records
  have valid : isComboValid { attacks := hits 0 7, punish := killedUp } = true := by decide +kernel
  have differ : (killedUp : Punish ExtRat) ≠ default := by decide +kernel
  exact differ (records valid)

end SlippCrunch
