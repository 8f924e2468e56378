import SlippCrunch.Basis.Outcomes
import SlippCrunch.Combo.Segmentation
import SlippCrunch.Cruncher.Results

/-! The combos of a crunch against the combos found file by file. -/

namespace SlippCrunch

open Outcomes

variable {P F : Type}

/-- A system that builds every thread, around a parser that answers every call. -/
def SlipParser.environment (slip : SlipParser P F) : Environment P where
  newParser := slip.new
  load parser filename := .ok (slip.load parser filename)
  startThread _ := .ok ()

variable [FloatOps F]

/-- The description of a crunch for combos. -/
def comboDesc (slip : SlipParser P F) (path : Path) :
    CruncherDesc P (Except Fault (List (Combo F))) where
  crunchFunc parser := .ok (findCombosFromParser slip parser)
  path := path

/-- Whatever a crunch for combos returns holds the combos found file by file, up to order. -/
def PathsAgree (slip : SlipParser P F) (path : Path) (workers : Nat)
    (entries : List DirectoryEntry) : Prop :=
  ∀ state results, (crunch slip.environment (comboDesc slip path) workers entries).Reachable state →
    state.main = .returned results →
      ∃ batch single, concatenated results = .ok batch ∧
        concatenated ((slpFiles entries).map fun fileEntry =>
          findCombosFromReplayFilename slip fileEntry.path) = .ok single ∧
        batch.Perm single

variable {slip : SlipParser P F} {path : Path} {workers : Nat} {entries : List DirectoryEntry}

/-- Nothing throws in a crunch for combos. -/
theorem comboDesc_calm (files : List DirectoryEntry) :
    ¬ Failure slip.environment (comboDesc slip path) workers files := by
  -- Threads, loads and scans all answer with a value.
  intro failure
  cases failure with
  | thread inside built => simp [SlipParser.environment] at built
  | load listed loaded => simp [SlipParser.environment] at loaded
  | crunch listed loaded crunched => simp [comboDesc] at crunched

/-- The crunch skips a file that does not load, and otherwise does what is done for a single file. -/
theorem crunchResult_comboDesc (fileEntry : DirectoryEntry) :
    crunchResult slip.environment (comboDesc slip path) fileEntry =
      if (slip.loaded fileEntry.path).2 then
        some (findCombosFromReplayFilename slip fileEntry.path)
      else none := by
  have loaded : slip.environment.load (slip.environment.newParser 0) fileEntry.path =
      .ok ((slip.loaded fileEntry.path).1, (slip.loaded fileEntry.path).2) := rfl
  -- The worker asks whether the load succeeded, which the other way does not.
  cases didParse : (slip.loaded fileEntry.path).2 with
  | false =>
    rw [didParse] at loaded
    simp [crunchResult, crunchFile_skip loaded]
  | true =>
    rw [didParse] at loaded
    simp [crunchResult, crunchFile_parse loaded, comboDesc, Except.map,
      findCombosFromReplayFilename]

/-- The combos a crunch finds in one file. -/
def batchCombos (slip : SlipParser P F) (fileEntry : DirectoryEntry) : List (Combo F) :=
  if (slip.loaded fileEntry.path).2 then
    values (findCombosFromReplayFilename slip fileEntry.path)
  else []

/-- The combos of a sequential pass are those of the files one after the other. -/
theorem flatMap_crunchResult (files : List DirectoryEntry) :
    (files.filterMap (crunchResult slip.environment (comboDesc slip path))).flatMap values =
      files.flatMap (batchCombos slip) := by
  -- A file that does not load contributes no result, and so no combo.
  induction files with
  | nil => rfl
  | cons fileEntry rest ih =>
    rw [List.flatMap_cons, ← ih]
    cases didParse : (slip.loaded fileEntry.path).2 with
    | false => simp [crunchResult_comboDesc, batchCombos, didParse]
    | true => simp [crunchResult_comboDesc, batchCombos, didParse]

/-- The agreement is one between two fixed lists, whatever the schedule. -/
theorem pathsAgree_iff_lists (some_worker : 0 < workers) :
    PathsAgree slip path workers entries ↔
      (∀ fileEntry ∈ slpFiles entries,
        ∃ combos, findCombosFromReplayFilename slip fileEntry.path = .ok combos) ∧
      ((slpFiles entries).flatMap (batchCombos slip)).Perm
        ((slpFiles entries).flatMap fun fileEntry =>
          values (findCombosFromReplayFilename slip fileEntry.path)) := by
  have calm : ¬ Failure slip.environment (comboDesc slip path) workers (slpFiles entries) :=
    comboDesc_calm (slpFiles entries)
  have returns := crunchMachine_returns (calm_of_dealt calm)
  rw [← crunch_eq] at returns
  -- The vector of the crunch holds the outcomes of the files that load.
  have dealt : (dealtResults slip.environment (comboDesc slip path) workers entries).Perm
      ((slpFiles entries).filterMap (crunchResult slip.environment (comboDesc slip path))) :=
    RoundRobin.hands_filterMap_perm some_worker _ _
  have gathered := (dealt.flatMap_right values).trans
    (List.Perm.of_eq (flatMap_crunchResult (slpFiles entries)))
  constructor
  · intro agree
    obtain ⟨later, leads, returned⟩ := returns.attained _ StepMachine.Reachable.start
    obtain ⟨batch, single, batchOk, singleOk, same⟩ :=
      agree later _ (StepMachine.Reachable.start.leads leads) returned
    obtain ⟨_, batchEq⟩ := (concatenated_ok_iff _ _).mp batchOk
    obtain ⟨singlesOk, singleEq⟩ := (concatenated_ok_iff _ _).mp singleOk
    refine ⟨?_, ?_⟩
    · intro fileEntry listed
      exact singlesOk _ (List.mem_map_of_mem listed)
    · rw [List.flatMap_map] at singleEq
      rw [← batchEq, ← singleEq] at same
      exact gathered.symm.trans same
  · intro ⟨allOk, same⟩ state results reachable returned
    have vector := returns.unique state results reachable returned
    subst vector
    refine ⟨_, _, (concatenated_ok_iff _ _).mpr ⟨?_, rfl⟩,
      (concatenated_ok_iff _ _).mpr ⟨?_, rfl⟩, ?_⟩
    · intro outcome member
      obtain ⟨fileEntry, listed, found⟩ := List.mem_filterMap.mp (dealt.mem_iff.mp member)
      rw [crunchResult_comboDesc] at found
      cases didParse : (slip.loaded fileEntry.path).2 with
      | false => simp [didParse] at found
      | true =>
        simp only [didParse, if_true, Option.some.injEq] at found
        rw [← found]
        exact allOk fileEntry listed
    · intro outcome member
      obtain ⟨fileEntry, listed, found⟩ := List.mem_map.mp member
      rw [← found]
      exact allOk fileEntry listed
    · rw [List.flatMap_map]
      exact gathered.trans same

/-- What a parser analyzes after loading a file, whether the load succeeded or not. -/
def analysisAfter (slip : SlipParser P F) (fileEntry : DirectoryEntry) : Analysis F :=
  slip.analyze (slip.loaded fileEntry.path).1

/-- Both ways agree when every scan ends, and a failed load leaves no valid combo to be found. -/
theorem pathsAgree_iff (some_worker : 0 < workers) :
    PathsAgree slip path workers entries ↔
      ∀ fileEntry ∈ slpFiles entries,
        ∃ n, (chosenPlayer (analysisAfter slip fileEntry)).FirstFrameZero n ∧
          ((slip.loaded fileEntry.path).2 = false →
            ∀ block ∈ ((chosenPlayer (analysisAfter slip fileEntry)).punishBlocks n).dropLast,
              isComboValid ((chosenPlayer (analysisAfter slip fileEntry)).comboOf block) =
                false) := by
  rw [pathsAgree_iff_lists some_worker]
  constructor
  · intro ⟨allOk, same⟩ fileEntry listed
    obtain ⟨n, first⟩ := (findCombosFromAnalysis_ok_iff _).mp (allOk fileEntry listed)
    refine ⟨n, first, ?_⟩
    intro failed block closed
    -- The crunch finds no more in a file than the other way, and here both find as much.
    have fewer : ∀ other ∈ slpFiles entries, (batchCombos slip other).length ≤
        (values (findCombosFromReplayFilename slip other.path)).length := by
      intro other _
      unfold batchCombos
      split
      · exact Nat.le_refl _
      · exact Nat.zero_le _
    have lengths := length_eq_of_flatMap fewer same.length_eq fileEntry listed
    have found : findCombosFromReplayFilename slip fileEntry.path = _ :=
      findCombosFromAnalysis_eq first
    simp only [batchCombos, failed, found, values_ok, Bool.false_eq_true, if_false,
      List.length_nil] at lengths
    have none_valid := List.eq_nil_of_length_eq_zero lengths.symm
    rw [List.filter_eq_nil_iff] at none_valid
    have invalid := none_valid _ (List.mem_map_of_mem closed)
    exact Bool.eq_false_of_not_eq_true invalid
  · intro harmless
    refine ⟨?_, ?_⟩
    · intro fileEntry listed
      obtain ⟨n, first, _⟩ := harmless fileEntry listed
      exact ⟨_, findCombosFromAnalysis_eq first⟩
    · apply List.Perm.of_eq
      apply List.flatMap_congr
      intro fileEntry listed
      obtain ⟨n, first, noneLeft⟩ := harmless fileEntry listed
      unfold batchCombos
      cases didParse : (slip.loaded fileEntry.path).2 with
      | true => simp
      | false =>
        -- What the failed load left behind holds no combo either.
        have found : findCombosFromReplayFilename slip fileEntry.path = _ :=
          findCombosFromAnalysis_eq first
        rw [found, values_ok]
        symm
        simp only [Bool.false_eq_true, if_false, List.filter_eq_nil_iff]
        intro combo member
        obtain ⟨block, closed, same⟩ := List.mem_map.mp member
        rw [← same, Bool.not_eq_true]
        exact noneLeft didParse block closed

/-- A parser that loads one file with two punishes, and fails on every other one, leaving nothing. -/
def careful [UndefinedConversion] : SlipParser Bool ExtRat where
  new _ := false
  load _ filename := (filename == (replay 'a').path, filename == (replay 'a').path)
  analyze loaded := if loaded then twoPunishes else gameOf [] []

/-- A file that loads and one that fails and leaves nothing give the same combos both ways. -/
theorem careful_agrees : letI := zeroConversion
    PathsAgree careful [] 2 [replay 'a', replay 'b'] := by
  let undefinedConversion := zeroConversion
  apply (pathsAgree_iff (by decide)).mpr
  intro fileEntry listed
  have either : fileEntry = replay 'a' ∨ fileEntry = replay 'b' := by
    have bare : slpFiles [replay 'a', replay 'b'] = [replay 'a', replay 'b'] := by decide
    simpa [bare] using listed
  cases either with
  | inl same =>
    subst same
    exact ⟨_, twoPunishes_first, fun failed => by simp [SlipParser.loaded, careful] at failed⟩
  | inr same =>
    subst same
    -- The game left behind has no attack at all.
    have empty : (chosenPlayer (gameOf [] [] : Analysis ExtRat)).attacksBefore 0 = [] :=
      attacksBefore_gameOf (by decide)
    have first : (chosenPlayer (gameOf [] [] : Analysis ExtRat)).FirstFrameZero 0 :=
      firstFrameZero_gameOf (by decide) (by simp)
    refine ⟨0, first, ?_⟩
    intro _ block closed
    have none_closed : (chosenPlayer (analysisAfter careful (replay 'b'))).punishBlocks 0 = [] := by
      show Blocks.blocks Attack.punishId _ = []
      exact congrArg _ empty
    simp [none_closed] at closed

/-- A parser that fails on every file, but leaves a game with a valid combo behind. -/
def careless [UndefinedConversion] : SlipParser Unit ExtRat where
  new _ := ()
  load _ _ := ((), false)
  analyze _ := twoPunishes

/-- A combo that a failed load left behind is found on its own, and not by the crunch. -/
theorem careless_disagrees : letI := zeroConversion
    ¬ PathsAgree careless [] 1 [replay 'a'] := by
  let undefinedConversion := zeroConversion
  intro agree
  obtain ⟨_, same⟩ := (pathsAgree_iff_lists (by decide)).mp agree
  have bare : slpFiles [replay 'a'] = [replay 'a'] := by decide
  have found : findCombosFromReplayFilename careless (replay 'a').path = _ := firstPunish_found []
  have failed : (careless.loaded (replay 'a').path).2 = false := rfl
  -- One list is empty, and the other is not.
  simp [bare, batchCombos, found, failed] at same

end SlippCrunch
