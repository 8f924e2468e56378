import Mathlib.Algebra.BigOperators.Fin
import SlippCrunch.Cruncher.Effects

/-! The progress counters follow the results, whatever the schedule, and count the loaded files in the end. -/

namespace SlippCrunch

variable {P R : Type} {workers : Nat}

/-- A file's load succeeds. -/
def Environment.didLoad (env : Environment P) (fileEntry : DirectoryEntry) : Bool :=
  match env.load (env.newParser 0) fileEntry.path with
  | .ok (_, didParse) => didParse
  | .error _ => false

namespace WorkerPc

/-- The results a worker has pushed but not counted yet. -/
@[simp] def uncounted : WorkerPc P → Nat
  | .readCount | .storeCount _ => 1
  | _ => 0

/-- The loaded files a worker has taken from its queue but not pushed a result for yet. -/
@[simp] def pending (env : Environment P) : WorkerPc P → Nat
  | .load fileEntry => if env.didLoad fileEntry then 1 else 0
  | .crunch _ => 1
  | _ => 0

end WorkerPc

variable {env : Environment P} {desc : CruncherDesc P R} {queues : Fin workers → List DirectoryEntry}

namespace Worker

/-- What ties a worker's counter and results to the queue the main thread made for it. -/
structure Tally (env : Environment P) (queue : List DirectoryEntry) (worker : Worker P R) :
    Prop where
  fresh : worker.pc = .unstarted →
    worker.results = [] ∧ worker.processedFileCount = 0 ∧ worker.promise = none
  counted : worker.results.length = worker.processedFileCount + worker.pc.uncounted
  stored : ∀ count, worker.pc = .storeCount count → count = worker.processedFileCount
  /-- A loaded file is in the queue, or pending, or has a result. -/
  conserved : worker.pc ≠ .unstarted →
    worker.results.length + worker.pc.pending env + worker.fileEntryQueue.countP env.didLoad =
      queue.countP env.didLoad
  drained : worker.pc = .setValue ∨ worker.pc = .leaving ∨ worker.pc = .finished →
    worker.fileEntryQueue = []
  promised : ∀ results, worker.promise = some results →
    results = worker.results ∧ (worker.pc = .leaving ∨ worker.pc = .finished)

/-- A worker that was not started has counted nothing. -/
theorem Tally.unstarted (queue : List DirectoryEntry) : ({} : Worker P R).Tally env queue where
  fresh _ := ⟨rfl, rfl, rfl⟩
  counted := rfl
  stored _ storing := nomatch storing
  conserved started := absurd rfl started
  drained ended := by simp at ended
  promised _ set := nomatch set

/-- A worker started with a copy of its queue has all of the queue's files before it. -/
theorem Tally.start {queue : List DirectoryEntry} {worker : Worker P R}
    (tally : worker.Tally env queue) (unstarted : worker.pc = .unstarted) :
    Worker.Tally env queue { worker with fileEntryQueue := queue, pc := .pop } := by
  -- It has neither results nor a count yet, and the whole queue is left.
  obtain ⟨noResults, noCount, noPromise⟩ := tally.fresh unstarted
  refine ⟨?_, ?_, ?_, ?_, ?_, ?_⟩
  · simp
  · simp [noResults, noCount]
  · simp
  · simp [noResults]
  · simp
  · simp [noPromise]

/-- A move counts a result two moves after the one that pushed it. -/
theorem Tally.counted_move {queue : List DirectoryEntry} {worker next : Worker P R}
    (tally : worker.Tally env queue) (move : worker.Move env desc (.ok next)) :
    next.results.length = next.processedFileCount + next.pc.uncounted := by
  have counted := tally.counted
  cases move with
  | push pc crunched =>
    simp only [pc, WorkerPc.uncounted] at counted
    simp [counted]
  | storeCount pc =>
    -- Nobody else writes the counter between its load and its store.
    have loaded := tally.stored _ pc
    simp only [pc, WorkerPc.uncounted] at counted
    simp only [WorkerPc.uncounted, counted, loaded]
  | exhaust pc | take pc | skip pc | parse pc | readCount pc | setValue pc | leave pc =>
    simpa [pc] using counted

/-- A move passes every loaded file on by one place at most. -/
theorem Tally.conserved_move {queue : List DirectoryEntry} {worker next : Worker P R}
    (tally : worker.Tally env queue) (move : worker.Move env desc (.ok next)) :
    next.results.length + next.pc.pending env + next.fileEntryQueue.countP env.didLoad =
      queue.countP env.didLoad := by
  -- A file that loads is waiting, then pending, then a result.
  have conserved := tally.conserved move.started.1
  cases move with
  | take pc waiting =>
    simp only [pc, waiting, WorkerPc.pending, List.countP_cons] at conserved
    simp only [WorkerPc.pending]
    omega
  -- A file that does not load was never counted among those that do.
  | skip pc loaded => simpa [pc, Environment.didLoad, loaded] using conserved
  | parse pc loaded => simpa [pc, Environment.didLoad, loaded] using conserved
  | push pc crunched =>
    simp only [pc, WorkerPc.pending] at conserved
    simpa using conserved
  | exhaust pc | readCount pc | storeCount pc | setValue pc | leave pc =>
    simpa [pc] using conserved

/-- A promise is set to the results, by the last move but one. -/
theorem Tally.promised_move {queue : List DirectoryEntry} {worker next : Worker P R}
    (tally : worker.Tally env queue) (move : worker.Move env desc (.ok next)) {results : List R}
    (set : next.promise = some results) :
    results = next.results ∧ (next.pc = .leaving ∨ next.pc = .finished) := by
  cases move with
  | setValue pc =>
    cases set
    exact ⟨rfl, .inl rfl⟩
  | leave pc => exact ⟨(tally.promised results set).1, .inr rfl⟩
  | exhaust pc | take pc | skip pc | parse pc | push pc | readCount pc | storeCount pc =>
    -- A worker that is still at work has set no promise.
    have ended := (tally.promised results set).2
    simp [pc] at ended

/-- A move keeps the tally. -/
theorem Tally.move {queue : List DirectoryEntry} {worker next : Worker P R}
    (tally : worker.Tally env queue) (move : worker.Move env desc (.ok next)) :
    next.Tally env queue := by
  -- Only two moves touch what the remaining parts speak of.
  refine ⟨fun unstarted => absurd unstarted move.started.2, tally.counted_move move, ?_,
    fun _ => tally.conserved_move move, ?_, fun _ set => tally.promised_move move set⟩
  · -- The value about to be stored is the one just loaded.
    intro count storing
    cases move with
    | readCount pc =>
      cases storing
      rfl
    | exhaust | take | skip | parse | push | storeCount | setValue | leave => simp at storing
  · -- A worker only stops taking files when there is none.
    intro ended
    cases move with
    | exhaust pc empty => exact empty
    | setValue pc => exact tally.drained (.inl pc)
    | leave pc => exact tally.drained (.inr (.inl pc))
    | take | skip | parse | push | readCount | storeCount => simp at ended

/-- No move takes anything back from the counter. -/
theorem Tally.count_le {queue : List DirectoryEntry} {worker next : Worker P R}
    (tally : worker.Tally env queue) (move : worker.Move env desc (.ok next)) :
    worker.processedFileCount ≤ next.processedFileCount := by
  cases move with
  | storeCount pc =>
    -- What is stored is one more than what was there.
    rw [tally.stored _ pc]
    exact Nat.le_succ _
  | exhaust | take | skip | parse | push | readCount | setValue | leave => exact Nat.le_refl _

/-- A worker has at most as many results as its queue held files that load. -/
theorem Tally.results_le {queue : List DirectoryEntry} {worker : Worker P R}
    (tally : worker.Tally env queue) : worker.results.length ≤ queue.countP env.didLoad := by
  -- Before it starts a worker has no results, and later each stands for a loaded file.
  by_cases started : worker.pc = .unstarted
  · simp [(tally.fresh started).1]
  · have conserved := tally.conserved started
    omega

/-- A worker whose promise is set has counted a result for every file that loaded. -/
theorem Tally.of_promise {queue : List DirectoryEntry} {worker : Worker P R} {results : List R}
    (tally : worker.Tally env queue) (set : worker.promise = some results) :
    results = worker.results ∧ worker.fileEntryQueue = [] ∧
      worker.processedFileCount = worker.results.length ∧
      worker.results.length = queue.countP env.didLoad := by
  -- Such a worker has nothing left to load, to push or to count.
  obtain ⟨same, ended⟩ := tally.promised results set
  have empty : worker.fileEntryQueue = [] := tally.drained (.inr ended)
  have conserved := tally.conserved (by rcases ended with pc | pc <;> simp [pc])
  have counted := tally.counted
  refine ⟨same, empty, ?_, ?_⟩
  · rcases ended with pc | pc <;> simp only [pc, WorkerPc.uncounted] at counted <;> omega
  · rcases ended with pc | pc <;>
      simpa only [pc, empty, WorkerPc.pending, List.countP_nil, Nat.add_zero] using conserved

end Worker

namespace CrunchState

/-- What ties the counters and the log to the queues, in every reachable state. -/
structure Counted (env : Environment P) (queues : Fin workers → List DirectoryEntry)
    (state : CrunchState P R workers) : Prop where
  tallies : ∀ k, (state.worker k).Tally env (queues k)
  logged : ∀ item ∈ state.log, ∃ k : Fin workers, item.iThread = k.val ∧
    item.threadProcessedFileCount ≤ (state.worker k).processedFileCount
  ordered : state.log.Pairwise fun earlier later => earlier.iThread = later.iThread →
    earlier.threadProcessedFileCount ≤ later.threadProcessedFileCount

variable {state next : CrunchState P R workers} {agent : Agent workers}

/-- Before the first step nothing is counted or logged. -/
theorem Counted.start : Counted env queues (crunchMachine env desc queues).start where
  tallies k := .unstarted (queues k)
  logged item member := by simp [crunchMachine] at member
  ordered := by simp [crunchMachine]

/-- Every step keeps the workers' tallies, and lets no counter go down. -/
theorem Counted.step_workers (counted : state.Counted env queues) (inv : state.Inv env desc queues)
    (moved : state.step env desc agent = some next) :
    ∀ k, (next.worker k).Tally env (queues k) ∧
      (state.worker k).processedFileCount ≤ (next.worker k).processedFileCount := by
  have still : ∀ k, (state.worker k).Tally env (queues k) ∧
      (state.worker k).processedFileCount ≤ (state.worker k).processedFileCount :=
    fun k => ⟨counted.tallies k, Nat.le_refl _⟩
  -- Only starting a worker and its own moves change anything about it.
  cases step_move moved with
  | ends k move => exact still
  | worker k move =>
    apply (Function.forall_update_iff state.worker fun j worker => worker.Tally env (queues j) ∧
      (state.worker j).processedFileCount ≤ worker.processedFileCount).mpr
    have tally := counted.tallies k
    exact ⟨⟨tally.move move, tally.count_le move⟩, fun j _ => still j⟩
  | main move =>
    cases inv.mainMove_effect move with
    | quiet worker | logs k worker | reads k results worker =>
      rw [worker]
      exact still
    | starts k atSpawn worker =>
      -- The worker being started was not started before, and keeps its counter.
      have unstarted : (state.worker k).pc = .unstarted := by
        rw [inv.unstarted k, started_of_spawn atSpawn]
      rw [worker]
      apply (Function.forall_update_iff state.worker fun j worker => worker.Tally env (queues j) ∧
        (state.worker j).processedFileCount ≤ worker.processedFileCount).mpr
      rw [inv.queuesKept]
      exact ⟨⟨(counted.tallies k).start unstarted, Nat.le_refl _⟩, fun j _ => still j⟩

/-- A step leaves the log alone, or prints the counter a thread has at that moment. -/
theorem Inv.step_log (inv : state.Inv env desc queues)
    (moved : state.step env desc agent = some next) :
    next.log = state.log ∨ ∃ (k : Fin workers) (item : ProgressItem),
      next.log = state.log ++ [item] ∧ item.iThread = k.val ∧
        item.threadProcessedFileCount = (state.worker k).processedFileCount := by
  -- Workers do not print, and the main thread prints one item at a time.
  cases step_move moved with
  | worker k move => exact .inl rfl
  | ends k move => exact .inl rfl
  | main move =>
    cases inv.mainMove_effect move with
    | quiet _ log | starts _ _ _ log | reads _ _ _ log => exact .inl log
    | logs k _ log => exact .inr ⟨k, _, log, rfl, rfl⟩

/-- Every step keeps counters and log in order. -/
theorem Counted.step (counted : state.Counted env queues) (inv : state.Inv env desc queues)
    (moved : state.step env desc agent = some next) : next.Counted env queues := by
  have workers_kept := counted.step_workers inv moved
  -- What was logged before is not above the counters, which only grow.
  have logged : ∀ item ∈ state.log, ∃ k : Fin workers, item.iThread = k.val ∧
      item.threadProcessedFileCount ≤ (next.worker k).processedFileCount := by
    intro item member
    obtain ⟨k, thread, bound⟩ := counted.logged item member
    exact ⟨k, thread, bound.trans (workers_kept k).2⟩
  rcases inv.step_log moved with log | ⟨k, item, log, thread, count⟩
  · refine ⟨fun j => (workers_kept j).1, ?_, ?_⟩
    · rw [log]
      exact logged
    · rw [log]
      exact counted.ordered
  · refine ⟨fun j => (workers_kept j).1, ?_, ?_⟩
    · intro other member
      rw [log, List.mem_append, List.mem_singleton] at member
      rcases member with before | rfl
      · exact logged other before
      · exact ⟨k, thread, count.trans_le (workers_kept k).2⟩
    · rw [log, List.pairwise_append]
      refine ⟨counted.ordered, List.pairwise_singleton _ _, ?_⟩
      intro other before last same sameThread
      obtain ⟨j, otherThread, bound⟩ := counted.logged other before
      rw [List.mem_singleton.mp same] at sameThread ⊢
      -- Both items are about the same thread.
      have equal : j = k := Fin.ext (by omega)
      rw [count, ← equal]
      exact bound

/-- Every reachable state satisfies both invariants. -/
theorem Counted.reachable (reachable : (crunchMachine env desc queues).Reachable state) :
    state.Inv env desc queues ∧ state.Counted env queues := by
  -- Both hold at the start, and every step keeps them together.
  apply reachable.invariant
  · exact ⟨Inv.start, Counted.start⟩
  · intro now agent after holds moved
    exact ⟨holds.1.step moved, holds.2.step holds.1 moved⟩

/-- No counter goes down on the way to a later state. -/
theorem Counted.count_mono (reachable : (crunchMachine env desc queues).Reachable state)
    (leads : (crunchMachine env desc queues).Leads state next) (k : Fin workers) :
    (state.worker k).processedFileCount ≤ (next.worker k).processedFileCount := by
  -- Each step of the way keeps the invariants, and lets the counter grow or stay.
  have final : (next.Inv env desc queues ∧ next.Counted env queues) ∧
      (state.worker k).processedFileCount ≤ (next.worker k).processedFileCount := by
    apply leads.invariant
    · exact ⟨Counted.reachable reachable, Nat.le_refl _⟩
    · intro now agent after holds moved
      obtain ⟨⟨inv, counted⟩, bound⟩ := holds
      exact ⟨⟨inv.step moved, counted.step inv moved⟩,
        bound.trans (counted.step_workers inv moved k).2⟩
  exact final.2

/-- Once all threads are joined, all promises are set. -/
theorem Inv.promised_of_joined (inv : state.Inv env desc queues)
    (joined : state.main.joined workers = workers) (k : Fin workers) :
    ∃ results, (state.worker k).promise = some results := by
  apply Option.isSome_iff_exists.mp
  apply inv.checked k
  -- Joining began when all futures had been found ready.
  cases pc : state.main with
  | join i | get i results | returned results => simp
  | spawn i | check i | log i | thrown exception =>
    have inside := k.isLt
    simp only [pc, MainPc.joined] at joined
    omega

/-- A counter whose promise is set is the number of results the queue's files have. -/
theorem count_eq_of_promise (inv : state.Inv env desc queues) (counted : state.Counted env queues)
    {k : Fin workers} {results : List R} (set : (state.worker k).promise = some results) :
    (state.worker k).processedFileCount =
      ((queues k).filterMap (crunchResult env desc)).length := by
  -- The results promised are those of the pass over the whole queue.
  obtain ⟨same, _, all, _⟩ := (counted.tallies k).of_promise set
  rw [all, ← same, crunchFiles_ok ((inv.workersSound k).promise_eq set)]

end CrunchState

open CrunchState

/-- The progress counters of a crunch are consistent with its results. -/
structure ProgressConsistent (env : Environment P) (desc : CruncherDesc P R) (workers : Nat)
    (entries : List DirectoryEntry) : Prop where
  queuesKept : ∀ state, (crunch env desc workers entries).Reachable state →
    state.fileEntryQueues = (setupQueues workers entries).fileEntryQueues
  counters : ∀ state, (crunch env desc workers entries).Reachable state → ∀ k,
    (state.worker k).processedFileCount ≤ (state.worker k).results.length ∧
    (state.worker k).results.length ≤ (state.worker k).processedFileCount + 1 ∧
    (state.worker k).processedFileCount ≤ (state.fileEntryQueues k).length
  nondecreasing : ∀ state later, (crunch env desc workers entries).Reachable state →
    (crunch env desc workers entries).Leads state later → ∀ k,
      (state.worker k).processedFileCount ≤ (later.worker k).processedFileCount
  logged : ∀ state, (crunch env desc workers entries).Reachable state →
    state.log.Pairwise fun earlier later => earlier.iThread = later.iThread →
      earlier.threadProcessedFileCount ≤ later.threadProcessedFileCount
  /-- A ready future means that every file of the queue that loads is counted. -/
  ready : ∀ state, (crunch env desc workers entries).Reachable state → ∀ k,
    (state.worker k).promise.isSome = true →
      (state.worker k).processedFileCount = (state.worker k).results.length ∧
      (state.worker k).results.length = (state.fileEntryQueues k).countP env.didLoad
  /-- From the last join on, the counters add up to what is returned. -/
  summed : ∀ state later results, (crunch env desc workers entries).Reachable state →
    state.main.joined workers = workers → (crunch env desc workers entries).Leads state later →
      later.main = .returned results →
        ∑ k, (state.worker k).processedFileCount = results.length

/-- The progress counters of every crunch are consistent. -/
theorem crunch_progressConsistent (env : Environment P) (desc : CruncherDesc P R) (workers : Nat)
    (entries : List DirectoryEntry) : ProgressConsistent env desc workers entries := by
  refine ⟨?_, ?_, ?_, ?_, ?_, ?_⟩
  · intro state reachable
    exact (Inv.reachable reachable).queuesKept
  · intro state reachable k
    obtain ⟨inv, counted⟩ := Counted.reachable reachable
    -- At most one result is pushed and not counted, and each belongs to a file of the queue.
    have tally := counted.tallies k
    have follows := tally.counted
    have uncounted : (state.worker k).pc.uncounted ≤ 1 := by
      cases (state.worker k).pc <;> simp
    have bounded := tally.results_le.trans List.countP_le_length
    rw [inv.queuesKept]
    omega
  · intro state later reachable leads k
    exact Counted.count_mono reachable leads k
  · intro state reachable
    exact (Counted.reachable reachable).2.ordered
  · intro state reachable k set
    obtain ⟨inv, counted⟩ := Counted.reachable reachable
    obtain ⟨results, set⟩ := Option.isSome_iff_exists.mp set
    rw [inv.queuesKept]
    exact ((counted.tallies k).of_promise set).2.2
  · intro state later results reachable joined leads returned
    obtain ⟨inv, counted⟩ := Counted.reachable reachable
    have invLater : later.Inv env desc (setupQueues workers entries).fileEntryQueues :=
      Inv.reachable (reachable.leads leads)
    -- The returned vector is made of the results that each worker had counted.
    rw [invLater.returned_eq returned, List.length_flatMap, Fin.sum_univ_def]
    congr 1
    apply List.map_congr_left
    intro k _
    obtain ⟨promised, set⟩ := inv.promised_of_joined joined k
    exact count_eq_of_promise inv counted set

end SlippCrunch
