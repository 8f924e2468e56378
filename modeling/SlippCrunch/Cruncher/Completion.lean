import SlippCrunch.Cruncher.Counters
import SlippCrunch.Cruncher.Results

/-! The check for running threads is sound, and every future is read once, with all of its results. -/

namespace SlippCrunch

open CrunchState

variable {P R : Type} {workers : Nat} {env : Environment P} {desc : CruncherDesc P R}
  {queues : Fin workers → List DirectoryEntry}

/-- What the first futures hold, read in the order of their threads. -/
def firstReads (env : Environment P) (desc : CruncherDesc P R)
    (queues : Fin workers → List DirectoryEntry) (m : Nat) : List (Fin workers × List R) :=
  ((List.finRange workers).take m).map fun k => (k, (queues k).filterMap (crunchResult env desc))

/-- One more future is read. -/
theorem firstReads_succ (k : Fin workers) :
    firstReads env desc queues (k + 1) =
      firstReads env desc queues k ++ [(k, (queues k).filterMap (crunchResult env desc))] := by
  -- The thread behind the first ones is the next one.
  have bound : k.val < (List.finRange workers).length := by simp
  simp [firstReads, List.take_succ_eq_append_getElem bound]

/-- Every step reads the next future in turn, or none. -/
theorem CrunchState.Inv.step_reads {state next : CrunchState P R workers} {agent : Agent workers}
    (inv : state.Inv env desc queues) (moved : state.step env desc agent = some next) :
    firstReads env desc queues (next.main.taken workers) =
      firstReads env desc queues (state.main.taken workers) ++
        (state.futureRead agent).toList := by
  cases step_move moved with
  -- A worker reads no future, and leaves the main thread where it is.
  | worker k move => simp [futureRead]
  | ends k move => simp [futureRead]
  | main move =>
    cases inv.mainMove_effect move with
    | quiet _ _ taken read | starts _ _ _ _ taken read | logs _ _ _ taken read =>
      rw [taken, read, Option.toList_none, List.append_nil]
    | reads k results _ _ promised before after read =>
      -- The value read is what the pass over the thread's queue yields.
      have passed := crunchFiles_ok ((inv.workersSound k).promise_eq promised)
      rw [before, after, firstReads_succ, read, passed]
      rfl

/-- Along every run, the futures are read in the order of their threads. -/
theorem trace_futureRead {schedule : List (Agent workers)} {later : CrunchState P R workers}
    (ran : (crunchMachine env desc queues).run (crunchMachine env desc queues).start schedule =
      some later) :
    (crunchMachine env desc queues).trace futureRead (crunchMachine env desc queues).start
      schedule = firstReads env desc queues (later.main.taken workers) := by
  -- At any time, what was read so far is what the futures in front of the next one hold.
  let ReadSoFar := fun (seen : List (Fin workers × List R)) (state : CrunchState P R workers) =>
    state.Inv env desc queues ∧ seen = firstReads env desc queues (state.main.taken workers)
  have start : ReadSoFar [] (crunchMachine env desc queues).start := by
    refine ⟨Inv.start, ?_⟩
    simp [firstReads, crunchMachine]
  have final : ReadSoFar ([] ++ (crunchMachine env desc queues).trace futureRead
      (crunchMachine env desc queues).start schedule) later := by
    apply StepMachine.trace_invariant ran start
    intro seen state agent next holds moved
    obtain ⟨inv, same⟩ := holds
    refine ⟨inv.step moved, ?_⟩
    rw [inv.step_reads moved, same]
  exact final.2

/-- A future that is read has its value set. -/
theorem promise_of_futureRead {state : CrunchState P R workers} {agent : Agent workers}
    {k : Fin workers} {threadResults : List R}
    (read : state.futureRead agent = some (k, threadResults)) :
    (state.worker k).promise = some threadResults := by
  -- Only the main thread reads futures, and only in its last loop.
  cases agent with
  | worker j => simp [futureRead] at read
  | main =>
    cases pc : state.main with
    | get i results =>
      simp only [futureRead, pc] at read
      split at read
      · split at read
        · simp only [Option.map_eq_some_iff, Prod.mk.injEq] at read
          obtain ⟨found, set, same, rfl⟩ := read
          rw [← same]
          exact set
        · simp at read
      · simp at read
    | _ => simp [futureRead, pc] at read

/-- Where the check for running threads answers that none is, every promise has been set. -/
theorem CrunchState.Inv.promised_of_checked {state next : CrunchState P R workers} {i : Nat}
    (inv : state.Inv env desc queues) (atCheck : state.main = .check i)
    (moved : state.step env desc .main = some next) (answered : next.main = .join 0)
    (k : Fin workers) : (state.worker k).promise.isSome = true := by
  apply inv.checked k
  have inside := k.isLt
  -- The loop over the futures is only left for the joins behind the last of them.
  have passed : workers ≤ i := by
    cases step_move moved with
    | main move =>
      cases move with
      | allReady atMove past =>
        rw [atCheck] at atMove
        cases atMove
        exact past
      | findsReady | findsRunning => simp at answered
      | starts _ atMove | startFails _ atMove | allStarted atMove | logs _ atMove
      | allLogged atMove | joins _ atMove | allJoined atMove | reads _ atMove
      | readFails _ atMove | allRead atMove => simp [atCheck] at atMove
  simp only [atCheck, MainPc.checked]
  omega

/-- The completion check of a crunch is sound, and so are the reads that rely on it. -/
structure CompletionSound (env : Environment P) (desc : CruncherDesc P R) (workers : Nat)
    (entries : List DirectoryEntry) : Prop where
  /-- No thread counts as running only when every thread has set its value. -/
  checked : ∀ state next i, (crunch env desc workers entries).Reachable state →
    state.main = .check i → (crunch env desc workers entries).step state .main = some next →
      next.main = .join 0 → ∀ k, (state.worker k).promise.isSome = true
  /-- A value read was set before, is all the worker has, and covers the worker's whole queue. -/
  complete : ∀ state agent k threadResults, (crunch env desc workers entries).Reachable state →
    state.futureRead agent = some (k, threadResults) →
      (state.worker k).promise = some threadResults ∧
      threadResults = (state.worker k).results ∧ (state.worker k).fileEntryQueue = [] ∧
      crunchFiles env desc (state.fileEntryQueues k) = .ok threadResults
  /-- On no run a future is read twice. -/
  atMostOnce : ∀ schedule later,
    (crunch env desc workers entries).run (crunch env desc workers entries).start schedule =
      some later →
    (((crunch env desc workers entries).trace futureRead
      (crunch env desc workers entries).start schedule).map Prod.fst).Nodup
  /-- On a run that returned, every future was read, in the order of the threads. -/
  allRead : ∀ schedule later results,
    (crunch env desc workers entries).run (crunch env desc workers entries).start schedule =
      some later → later.main = .returned results →
    ((crunch env desc workers entries).trace futureRead
      (crunch env desc workers entries).start schedule).map Prod.fst = List.finRange workers ∧
    results = ((crunch env desc workers entries).trace futureRead
      (crunch env desc workers entries).start schedule).flatMap Prod.snd
  /-- Where nothing throws, every run can be carried on until it returns. -/
  attained : ¬ Failure env desc workers (slpFiles entries) →
    ∀ state, (crunch env desc workers entries).Reachable state →
      ∃ later results, (crunch env desc workers entries).Leads state later ∧
        later.main = .returned results

/-- The threads of the first reads are the first threads. -/
theorem map_fst_firstReads (m : Nat) :
    (firstReads env desc queues m).map Prod.fst = (List.finRange workers).take m := by
  simp [firstReads, Function.comp_def]

/-- The completion check of every crunch is sound. -/
theorem crunch_completionSound (env : Environment P) (desc : CruncherDesc P R) (workers : Nat)
    (entries : List DirectoryEntry) : CompletionSound env desc workers entries := by
  -- Each part follows from what holds in every reachable state.
  refine ⟨?_, ?_, ?_, ?_, ?_⟩
  · intro state next i reachable atCheck moved answered
    have inv : state.Inv env desc (setupQueues workers entries).fileEntryQueues :=
      Inv.reachable reachable
    exact inv.promised_of_checked atCheck moved answered
  · -- A set promise is the worker's last word, given with its queue empty.
    intro state agent k threadResults reachable read
    obtain ⟨inv, counted⟩ := Counted.reachable reachable
    have promised := promise_of_futureRead read
    obtain ⟨same, empty, _⟩ := (counted.tallies k).of_promise promised
    rw [inv.queuesKept]
    exact ⟨promised, same, empty, (inv.workersSound k).promise_eq promised⟩
  · -- The threads whose futures were read are the first ones, each once.
    intro schedule later ran
    rw [crunch, trace_futureRead ran, map_fst_firstReads]
    exact (List.nodup_finRange workers).take
  · intro schedule later results ran returned
    have inv : later.Inv env desc (setupQueues workers entries).fileEntryQueues :=
      Inv.reachable ⟨schedule, ran⟩
    rw [crunch, trace_futureRead ran, returned]
    refine ⟨?_, ?_⟩
    · rw [map_fst_firstReads]
      simp
    · -- What was read, one value after the other, is what was gathered.
      rw [inv.returned_eq returned, MainPc.taken, firstReads, List.take_of_length_le (by simp),
        List.flatMap_map]
  · intro calm state reachable
    exact crunch_leads_returned calm reachable

end SlippCrunch
