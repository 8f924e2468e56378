import SlippCrunch.Cruncher.Progress

/-! Where nothing throws, a crunch returns one vector: on every schedule, and up to order on every machine. -/

namespace SlippCrunch

open CrunchState

variable {P R : Type} {workers : Nat} {env : Environment P} {desc : CruncherDesc P R}
  {entries : List DirectoryEntry}

/-- Every schedule can be carried on until the crunch returns, and it returns nothing but the given vector. -/
structure Returns (machine : StepMachine (CrunchState P R workers) (Agent workers))
    (results : List R) : Prop where
  attained : ∀ state, machine.Reachable state →
    ∃ later, machine.Leads state later ∧ later.main = .returned results
  unique : ∀ state other, machine.Reachable state → state.main = .returned other → other = results

/-- Without a point of failure, a crunch that is over has returned. -/
theorem CrunchState.Inv.returned_of_over {queues : Fin workers → List DirectoryEntry}
    {state : CrunchState P R workers} (inv : state.Inv env desc queues)
    (calm : ¬ Failure env desc workers (queuedFiles queues)) (isOver : state.Over) :
    ∃ results, state.main = .returned results := by
  -- Both other ways of ending need something that throws.
  cases isOver with
  | terminated ended => exact absurd (inv.failed ended) calm
  | returned results returned => exact ⟨results, returned⟩
  | thrown exception thrown =>
    obtain ⟨some_worker, built⟩ := inv.thrown exception thrown
    exact absurd (.thread some_worker built) calm

/-- The results of the workers one after the other, each with the files dealt to it in turn. -/
def dealtResults (env : Environment P) (desc : CruncherDesc P R) (workers : Nat)
    (entries : List DirectoryEntry) : List R :=
  (List.finRange workers).flatMap fun k : Fin workers =>
    (RoundRobin.hand workers k (slpFiles entries)).filterMap (crunchResult env desc)

/-- Whatever its queues hold, a crunch without a point of failure returns their results in order. -/
theorem crunchMachine_returns {queues : Fin workers → List DirectoryEntry}
    (calm : ¬ Failure env desc workers (queuedFiles queues)) :
    Returns (crunchMachine env desc queues) ((List.finRange workers).flatMap fun k =>
      (queues k).filterMap (crunchResult env desc)) := by
  refine ⟨?_, fun _ _ reachable => (Inv.reachable reachable).returned_eq⟩
  intro state reachable
  -- There is a way on to the end of the crunch, and the end is not an exception.
  obtain ⟨later, leads, isOver⟩ := (Inv.reachable reachable).leads_over
  have inv : later.Inv env desc queues := Inv.reachable (reachable.leads leads)
  obtain ⟨results, returned⟩ := inv.returned_of_over calm isOver
  refine ⟨later, leads, ?_⟩
  rw [returned, inv.returned_eq returned]

/-- A crunch works on the hands its files are dealt into. -/
theorem crunch_eq : crunch env desc workers entries =
    crunchMachine env desc fun k : Fin workers => RoundRobin.hand workers k (slpFiles entries) := by
  rw [crunch, setupQueues_eq]

/-- Where no file and no thread fails, none of the dealt files does. -/
theorem calm_of_dealt (calm : ¬ Failure env desc workers (slpFiles entries)) :
    ¬ Failure env desc workers
      (queuedFiles fun k : Fin workers => RoundRobin.hand workers k (slpFiles entries)) := by
  -- A queue holds nothing but files of the directory.
  intro failure
  apply calm (failure.mono _)
  intro fileEntry queued
  obtain ⟨k, _, inHand⟩ := List.mem_flatMap.mp queued
  exact RoundRobin.mem_of_mem_hand inHand

/-- Where nothing throws, every run of a crunch can be carried on until it returns. -/
theorem crunch_leads_returned (calm : ¬ Failure env desc workers (slpFiles entries))
    {state : CrunchState P R workers}
    (reachable : (crunch env desc workers entries).Reachable state) :
    ∃ later results, (crunch env desc workers entries).Leads state later ∧
      later.main = .returned results := by
  -- What is returned is known, but only that something is matters here.
  have returns := crunchMachine_returns (calm_of_dealt calm)
  rw [← crunch_eq] at returns
  obtain ⟨later, leads, returned⟩ := returns.attained state reachable
  exact ⟨later, _, leads, returned⟩

/-- Where nothing throws, the schedule has no influence on what a crunch returns. -/
theorem crunch_scheduleIndependent (calm : ¬ Failure env desc workers (slpFiles entries)) :
    Returns (crunch env desc workers entries) (dealtResults env desc workers entries) := by
  -- The queues of the workers are the hands dealt to them.
  rw [crunch_eq]
  exact crunchMachine_returns (calm_of_dealt calm)

/-- A parser that keeps the path of its file, and fails on one file. -/
def pathEnvironment (broken : Path) : Environment Path where
  newParser _ := []
  load _ filename := .ok (filename, filename != broken)
  startThread _ := .ok ()

/-- The crunch that returns the path a parser keeps. -/
def pathDesc : CruncherDesc Path Path where
  crunchFunc parser := .ok parser
  path := []

/-- A regular file named by one letter and the extension of a replay. -/
def replay (letter : Char) : DirectoryEntry where
  path := [[letter, '.', 's', 'l', 'p']]
  kind := .regularFile

/-- Nothing throws where paths are crunched. -/
theorem pathEnvironment_calm (broken : Path) (workers : Nat) (files : List DirectoryEntry) :
    ¬ Failure (pathEnvironment broken) pathDesc workers files := by
  -- No thread fails there, no load throws, and neither does a crunch.
  intro failure
  cases failure with
  | thread inside built => simp [pathEnvironment] at built
  | load listed loaded => simp [pathEnvironment] at loaded
  | crunch listed loaded crunched => simp [pathDesc] at crunched

/-- Of four files of which the second is broken, two workers return the first, third and fourth. -/
theorem fourReplays_returned :
    Returns
      (crunch (pathEnvironment (replay 'b').path) pathDesc 2
        [replay 'a', replay 'b', replay 'c', replay 'd'])
      [(replay 'a').path, (replay 'c').path, (replay 'd').path] := by
  have returns := crunch_scheduleIndependent
    (pathEnvironment_calm (replay 'b').path 2
      (slpFiles [replay 'a', replay 'b', replay 'c', replay 'd']))
  -- The first worker has the first and third file, the second worker the others.
  have vector : dealtResults (pathEnvironment (replay 'b').path) pathDesc 2
      [replay 'a', replay 'b', replay 'c', replay 'd'] =
      [(replay 'a').path, (replay 'c').path, (replay 'd').path] := by decide
  rw [vector] at returns
  exact returns

/-- The number of combos reported in the end. -/
def comboCount (size : R → Nat) (crunchResults : List R) : Nat :=
  crunchResults.foldl (fun comboCount crunchResult => comboCount + size crunchResult) 0

/-- The number of combos does not depend on the order of the results. -/
theorem comboCount_perm (size : R → Nat) {results others : List R} (same : results.Perm others) :
    comboCount size results = comboCount size others := by
  -- Adding two sizes is the same in either order.
  apply same.foldl_eq'
  intro first _ second _ count
  omega

/-- The files dealt to any number of workers yield what the sequential pass does, in another order. -/
theorem dealtResults_perm (some_worker : 0 < workers) {sequential : List R}
    (passed : crunchFiles env desc (slpFiles entries) = .ok sequential) :
    (dealtResults env desc workers entries).Perm sequential := by
  -- The hands together are all the files, and each of them is crunched on its own.
  rw [crunchFiles_ok passed]
  exact RoundRobin.hands_filterMap_perm some_worker (slpFiles entries) (crunchResult env desc)

/-- Two machines return the same results as the sequential pass over the files, up to order. -/
theorem crunch_machineIndependent {processorCount otherCount : Nat}
    (calm : ¬ Failure env desc (workerThreadCount processorCount) (slpFiles entries))
    (otherCalm : ¬ Failure env desc (workerThreadCount otherCount) (slpFiles entries)) :
    workerThreadCount processorCount ≠ 0 ∧ workerThreadCount otherCount ≠ 0 ∧
      ∃ results others sequential,
        Returns (crunch env desc (workerThreadCount processorCount) entries) results ∧
        Returns (crunch env desc (workerThreadCount otherCount) entries) others ∧
        crunchFiles env desc (slpFiles entries) = .ok sequential ∧
        results.Perm sequential ∧ others.Perm sequential ∧ results.Perm others ∧
        ∀ size : R → Nat, comboCount size results = comboCount size others := by
  -- Both vectors are the sequential one, dealt to different numbers of hands.
  have some_worker := workerThreadCount_pos processorCount
  have some_other := workerThreadCount_pos otherCount
  obtain ⟨sequential, passed⟩ : ∃ sequential,
      crunchFiles env desc (slpFiles entries) = .ok sequential := by
    cases passed : crunchFiles env desc (slpFiles entries) with
    | ok sequential => exact ⟨sequential, rfl⟩
    | error exception => exact absurd (.of_crunchFiles passed) calm
  have left : (dealtResults env desc (workerThreadCount processorCount) entries).Perm sequential :=
    dealtResults_perm some_worker passed
  have right : (dealtResults env desc (workerThreadCount otherCount) entries).Perm sequential :=
    dealtResults_perm some_other passed
  have both := left.trans right.symm
  have returns := crunchMachine_returns (calm_of_dealt calm)
  have returnsOther := crunchMachine_returns (calm_of_dealt otherCalm)
  rw [← crunch_eq] at returns returnsOther
  exact ⟨some_worker.ne', some_other.ne', _, _, sequential, returns, returnsOther, passed, left,
    right, both, fun size => comboCount_perm size both⟩

/-- One worker and three of them return four files' paths, a rejected entry standing in between. -/
theorem fourReplays_machineIndependent :
    ∃ results others : List Path,
      Returns
        (crunch (pathEnvironment (replay 'b').path) pathDesc (workerThreadCount 0)
          [replay 'a', replay 'b', { path := [['x']], kind := .regularFile }, replay 'c'])
        results ∧
      Returns
        (crunch (pathEnvironment (replay 'b').path) pathDesc (workerThreadCount 4)
          [replay 'a', replay 'b', { path := [['x']], kind := .regularFile }, replay 'c'])
        others ∧
      results.Perm others ∧ results.Perm [(replay 'a').path, (replay 'c').path] := by
  obtain ⟨_, _, results, others, sequential, returns, returnsOthers, passed, inOrder, _, same, _⟩ :=
    crunch_machineIndependent (pathEnvironment_calm (replay 'b').path (workerThreadCount 0)
        (slpFiles [replay 'a', replay 'b', { path := [['x']], kind := .regularFile }, replay 'c']))
      (pathEnvironment_calm (replay 'b').path (workerThreadCount 4) _)
  -- The rejected entry and the broken file leave no trace in the sequential pass.
  have pass : crunchFiles (pathEnvironment (replay 'b').path) pathDesc
      (slpFiles [replay 'a', replay 'b', { path := [['x']], kind := .regularFile }, replay 'c']) =
      .ok [(replay 'a').path, (replay 'c').path] := rfl
  rw [pass] at passed
  cases passed
  exact ⟨results, others, returns, returnsOthers, same, inOrder⟩

end SlippCrunch
