import SlippCrunch.Cruncher.Termination

/-! What the program prints in the end, against a pass over the files by a single thread. -/

namespace SlippCrunch

open CrunchState StepMachine

variable {P R : Type} {workers : Nat}

/-- The line printed about the results of a crunch. -/
def combosFound (size : R → Nat) (crunchResults : List R) : String :=
  "Found " ++ toString (comboCount size crunchResults) ++ " combos"

/-- What the main function has printed about a crunch, where it came that far. -/
def reportOf (size : R → Nat) (state : CrunchState P R workers) : Option String :=
  if state.terminated then none
  else
    match state.main with
    | .returned crunchResults => some (combosFound size crunchResults)
    -- Every exception that leaves the crunch is caught and printed.
    | .thrown error => some error.what
    | _ => none

/-- What main would print if the calling thread itself loaded and crunched one file after the other. -/
def sequentialReport (env : Environment P) (desc : CruncherDesc P R) (size : R → Nat)
    (entries : List DirectoryEntry) : String :=
  match crunchFiles env desc (slpFiles entries) with
  | .ok crunchResults => combosFound size crunchResults
  -- No other thread runs, so the exception would be caught as well.
  | .error error => error.what

/-- How a crunch ends, and what main has then printed about it. -/
structure EndsReported (env : Environment P) (desc : CruncherDesc P R) (size : R → Nat)
    (entries : List DirectoryEntry) (state : CrunchState P R workers) : Prop where
  isOver : state.Over
  sequential : (∀ iThread < workers, (env.startThread iThread).isOk = true) →
    (∃ results, crunchFiles env desc (slpFiles entries) = .ok results) →
    reportOf size state = some (sequentialReport env desc size entries)
  unstarted : ∀ error, env.startThread 0 = .error error → reportOf size state = some error.what
  -- Here one thread would have had the exception of a file printed.
  ended : env.startThread 0 = .ok () →
    ((∃ iThread < workers, ∃ error, env.startThread iThread = .error error) ∨
      ∃ error, crunchFiles env desc (slpFiles entries) = .error error) →
    state.terminated = true ∧ reportOf size state = none

variable {env : Environment P} {desc : CruncherDesc P R} {files entries : List DirectoryEntry}

/-- Nothing fails exactly if all threads can be started and the files can be treated. -/
theorem calm_iff : ¬ Failure env desc workers files ↔
    (∀ iThread < workers, (env.startThread iThread).isOk = true) ∧
      ∃ results, crunchFiles env desc files = .ok results := by
  constructor
  · -- A thread that cannot be started or a file that throws would be a failure.
    intro calm
    constructor
    · intro iThread inside
      cases built : env.startThread iThread with
      | ok _ => rfl
      | error exception => exact absurd (.thread inside built) calm
    · cases passed : crunchFiles env desc files with
      | ok results => exact ⟨results, rfl⟩
      | error exception => exact absurd (.of_crunchFiles passed) calm
  · rintro ⟨started, treated⟩ failure
    rw [crunchFiles_ok_iff] at treated
    -- Each failure contradicts one of the two.
    cases failure with
    | thread inside built =>
      have isOk := started _ inside
      rw [built] at isOk
      exact nomatch isOk
    | load listed loaded =>
      obtain ⟨result, passed⟩ := treated _ listed
      rw [crunchFile_throw loaded] at passed
      exact nomatch passed
    | crunch listed loaded crunched =>
      obtain ⟨result, passed⟩ := treated _ listed
      rw [crunchFile_parse loaded, crunched] at passed
      exact nomatch passed

/-- Two lists of the same results give the same line. -/
theorem combosFound_perm (size : R → Nat) {results others : List R} (same : results.Perm others) :
    combosFound size results = combosFound size others := by
  rw [combosFound, combosFound, comboCount_perm size same]

/-- A crunch that is over has printed what a single thread would print, unless something threw. -/
theorem endsReported_of_over (size : R → Nat) (some_worker : 0 < workers)
    {state : CrunchState P R workers}
    (reachable : (crunch env desc workers entries).Reachable state) (isOver : state.Over) :
    EndsReported env desc size entries state := by
  -- An execution that is over has returned, thrown, or ended its process.
  refine ⟨isOver, ?_, ?_, ?_⟩
  · -- The results are dealt in another order, of which their number knows nothing.
    rintro started ⟨results, passed⟩
    obtain ⟨runs, returned⟩ :=
      returned_of_calm reachable isOver (calm_iff.mpr ⟨started, results, passed⟩)
    have same := dealtResults_perm some_worker passed
    simp only [reportOf, sequentialReport, runs, returned, passed, Bool.false_eq_true, if_false,
      combosFound_perm size same]
  · -- Nothing runs yet, so the exception reaches main.
    intro error built
    obtain ⟨runs, thrown⟩ := thrown_of_unstarted some_worker built reachable isOver
    simp only [reportOf, runs, thrown, Bool.false_eq_true, if_false]
  · -- Behind the first thread a failure ends the process.
    intro built thrown
    have failure : Failure env desc workers (slpFiles entries) := by
      rcases thrown with ⟨iThread, inside, error, failed⟩ | ⟨error, failed⟩
      · exact .thread inside failed
      · exact .of_crunchFiles failed
    have ended := crunch_terminates_of_failure some_worker failure built reachable isOver
    exact ⟨ended, by simp only [reportOf, ended, if_true]⟩

end SlippCrunch
