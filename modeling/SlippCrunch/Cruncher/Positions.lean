import SlippCrunch.Basis.Seats
import SlippCrunch.Cruncher.Failures

/-! Which file a result belongs to, told by the result's position in the returned vector. -/

namespace SlippCrunch

open CrunchState RoundRobin

variable {P R : Type} {workers : Nat} {env : Environment P} {desc : CruncherDesc P R}
  {entries : List DirectoryEntry}

/-- Each queue holds a full share of the files, and the first ones hold what is left. -/
theorem setupQueues_length (entries : List DirectoryEntry) (k : Fin workers) :
    ((setupQueues workers entries).fileEntryQueues k).length =
      if k.val < (slpFiles entries).length % workers then (slpFiles entries).length / workers + 1
      else (slpFiles entries).length / workers := by
  -- A queue is a hand of the files, dealt one by one.
  rw [setupQueues_eq, length_hand k.isLt]
  split
  · rfl
  · rfl

/-- The results of a crunch can be traced back to the files, whose number is counted. -/
structure Traced (env : Environment P) (desc : CruncherDesc P R) (workers : Nat)
    (entries : List DirectoryEntry) (n : Nat) : Prop where
  /-- The number of files in each queue. -/
  queueLength : ∀ k : Fin workers, ((setupQueues workers entries).fileEntryQueues k).length =
    if k.val < n % workers then n / workers + 1 else n / workers
  /-- Unless something throws, every schedule can be carried on until the crunch returns. -/
  attained : ¬ Failure env desc workers (slpFiles entries) →
    ∀ state, (crunch env desc workers entries).Reachable state →
      ∃ later results, (crunch env desc workers entries).Leads state later ∧
        later.main = .returned results
  /-- There is one result for each file. -/
  resultCount : ∀ state results, (crunch env desc workers entries).Reachable state →
    state.main = .returned results → results.length = n
  /-- The result of a file stands at the file's place. -/
  position : ∀ state results, (crunch env desc workers entries).Reachable state →
    state.main = .returned results → ∀ j fileEntry, (slpFiles entries)[j]? = some fileEntry →
      ∃ result, crunchFile env desc fileEntry = .ok (some result) ∧
        results[j % workers * (n / workers) + min (j % workers) (n % workers) + j / workers]? =
          some result
  /-- Each place belongs to one file. -/
  bijective : Set.BijOn
    (fun j => j % workers * (n / workers) + min (j % workers) (n % workers) + j / workers)
    (Set.Iio n) (Set.Iio n)

/-- A loaded file that does not throw has a result. -/
theorem crunchResult_of_load {fileEntry : DirectoryEntry} {parser : P}
    (loaded : env.load (env.newParser 0) fileEntry.path = .ok (parser, true))
    {files : List DirectoryEntry} (listed : fileEntry ∈ files)
    (calm : ¬ Failure env desc workers files) :
    ∃ result, crunchFile env desc fileEntry = .ok (some result) ∧
      crunchResult env desc fileEntry = some result := by
  -- Its crunch is the only thing that could still throw.
  cases crunched : desc.crunchFunc parser with
  | error exception => exact absurd (.crunch listed loaded crunched) calm
  | ok result =>
    have treated : crunchFile env desc fileEntry = .ok (some result) := by
      rw [crunchFile_parse loaded, crunched]
      rfl
    exact ⟨result, treated, by simp [crunchResult, treated]⟩

/-- A crunch that returned met no point of failure, and gathered the results of the dealt files. -/
theorem crunch_returned (some_worker : 0 < workers) {state : CrunchState P R workers}
    {results : List R} (reachable : (crunch env desc workers entries).Reachable state)
    (returned : state.main = .returned results) :
    ¬ Failure env desc workers (slpFiles entries) ∧
      results = dealtResults env desc workers entries := by
  -- An execution that returns has met no failure, and has joined every worker.
  have inv : state.Inv env desc (setupQueues workers entries).fileEntryQueues :=
    Inv.reachable reachable
  refine ⟨?_, ?_⟩
  · -- Every file is in some queue.
    intro failure
    exact inv.calm_of_returned returned (failure.mono fun _ listed =>
      (setupQueues_perm some_worker entries).mem_iff.mpr listed)
  · rw [inv.returned_eq returned, setupQueues_eq]
    rfl

/-- Where every file loads, each result is found at the place of its file. -/
theorem crunch_traced (some_worker : 0 < workers)
    (loads : ∀ fileEntry ∈ slpFiles entries, ∃ parser,
      env.load (env.newParser 0) fileEntry.path = .ok (parser, true)) :
    Traced env desc workers entries (slpFiles entries).length := by
  -- Where nothing throws, a file that loads has a result.
  have found : ¬ Failure env desc workers (slpFiles entries) → ∀ fileEntry ∈ slpFiles entries,
      ∃ result, crunchFile env desc fileEntry = .ok (some result) ∧
        crunchResult env desc fileEntry = some result := by
    intro calm fileEntry listed
    obtain ⟨parser, loaded⟩ := loads fileEntry listed
    exact crunchResult_of_load loaded listed calm
  have yields : ¬ Failure env desc workers (slpFiles entries) → ∀ fileEntry ∈ slpFiles entries,
      (crunchResult env desc fileEntry).isSome = true := by
    intro calm fileEntry listed
    obtain ⟨result, _, yielded⟩ := found calm fileEntry listed
    simp [yielded]
  refine ⟨setupQueues_length entries, ?_, ?_, ?_, seat_bijOn some_worker _⟩
  · intro calm state reachable
    exact crunch_leads_returned calm reachable
  · -- Dealing the files neither loses nor repeats one.
    intro state results reachable returned
    obtain ⟨calm, rfl⟩ := crunch_returned some_worker reachable returned
    have same := hands_filterMap_perm some_worker (slpFiles entries) (crunchResult env desc)
    rw [dealtResults, same.length_eq, length_filterMap (yields calm)]
  · -- The file's seat in the gathered hands is the place of its result.
    intro state results reachable returned j fileEntry listed
    obtain ⟨calm, rfl⟩ := crunch_returned some_worker reachable returned
    obtain ⟨inside, _⟩ := List.getElem?_eq_some_iff.mp listed
    obtain ⟨result, treated, yielded⟩ := found calm fileEntry (List.mem_of_getElem? listed)
    refine ⟨result, treated, ?_⟩
    show (dealtResults env desc workers entries)[seat workers (slpFiles entries).length j]? = _
    rw [dealtResults, getElem?_seat_filterMap some_worker (yields calm) inside, listed]
    exact yielded

/-- Of five files that two workers crunch, the result of the fourth is returned in the last place. -/
theorem fiveReplays_traced : ∃ state results,
    (crunch (pathEnvironment []) pathDesc 2
      [replay 'a', replay 'b', replay 'c', replay 'd', replay 'e']).Reachable state ∧
    state.main = .returned results ∧ results.length = 5 ∧ results[4]? = some (replay 'd').path := by
  have named : ∀ fileEntry ∈
      slpFiles [replay 'a', replay 'b', replay 'c', replay 'd', replay 'e'],
      (fileEntry.path != []) = true := by decide
  have traced : Traced (pathEnvironment []) pathDesc 2
      [replay 'a', replay 'b', replay 'c', replay 'd', replay 'e'] _ :=
    crunch_traced (by decide) fun fileEntry listed =>
      ⟨fileEntry.path, by simp [pathEnvironment, named fileEntry listed]⟩
  -- Nothing throws, so some schedule brings the crunch to its end.
  obtain ⟨later, results, leads, returned⟩ :=
    traced.attained (pathEnvironment_calm [] 2 _) _ StepMachine.Reachable.start
  have reachable := StepMachine.Reachable.start.leads leads
  refine ⟨later, results, reachable, returned, traced.resultCount _ _ reachable returned, ?_⟩
  obtain ⟨result, treated, placed⟩ := traced.position _ _ reachable returned 3 (replay 'd') rfl
  have crunched : crunchFile (pathEnvironment []) pathDesc (replay 'd') =
      .ok (some (replay 'd').path) := rfl
  rw [crunched] at treated
  cases treated
  exact placed

end SlippCrunch
