import SlippCrunch.Cruncher.MainLaws

/-! What ties the main thread's loops to the worker threads, in every state a schedule can reach. -/

namespace SlippCrunch

namespace MainPc

variable {R : Type} (workers : Nat)

/-- How many threads have been started. -/
@[simp] def started : MainPc R → Nat
  | .spawn i => min i workers
  -- Only the construction of the very first thread leaves the crunch in this way.
  | .thrown _ => 0
  | _ => workers

/-- How many futures the current pass over them has found ready. -/
@[simp] def checked : MainPc R → Nat
  | .check i => min i workers
  | .join _ | .get _ _ | .returned _ => workers
  | _ => 0

/-- How many threads have been joined. -/
@[simp] def joined : MainPc R → Nat
  | .join i => min i workers
  | .get _ _ | .returned _ => workers
  | _ => 0

/-- How many futures have been read. -/
@[simp] def taken : MainPc R → Nat
  | .get i _ => min i workers
  | .returned _ => workers
  | _ => 0

/-- The results gathered so far. -/
@[simp] def gathered : MainPc R → List R
  | .get _ results | .returned results => results
  | _ => []

end MainPc

variable {P R : Type} {workers : Nat}

/-- The points at which a crunch of some files on a number of threads can throw. -/
inductive Failure (env : Environment P) (desc : CruncherDesc P R) (workers : Nat)
    (files : List DirectoryEntry) : Prop where
  | thread {iThread : Nat} {exception : Exception} (inside : iThread < workers)
      (built : env.startThread iThread = .error exception)
  | load {fileEntry : DirectoryEntry} {exception : Exception} (listed : fileEntry ∈ files)
      (loaded : env.load (env.newParser 0) fileEntry.path = .error exception)
  | crunch {fileEntry : DirectoryEntry} {parser : P} {exception : Exception}
      (listed : fileEntry ∈ files)
      (loaded : env.load (env.newParser 0) fileEntry.path = .ok (parser, true))
      (crunched : desc.crunchFunc parser = .error exception)

/-- What can fail on some files can fail on more of them. -/
theorem Failure.mono {env : Environment P} {desc : CruncherDesc P R}
    {files more : List DirectoryEntry} (failure : Failure env desc workers files)
    (included : ∀ fileEntry ∈ files, fileEntry ∈ more) : Failure env desc workers more := by
  -- A thread does not depend on the files, and a failing file is still among them.
  cases failure with
  | thread inside built => exact .thread inside built
  | load listed loaded => exact .load (included _ listed) loaded
  | crunch listed loaded crunched => exact .crunch (included _ listed) loaded crunched

/-- A file whose treatment throws is a point of failure. -/
theorem Failure.of_crunchFile {env : Environment P} {desc : CruncherDesc P R}
    {files : List DirectoryEntry} {fileEntry : DirectoryEntry} {exception : Exception}
    (listed : fileEntry ∈ files) (threw : crunchFile env desc fileEntry = .error exception) :
    Failure env desc workers files := by
  -- Either the load throws, or it parsed the file and the crunch throws.
  cases loaded : env.load (env.newParser 0) fileEntry.path with
  | error other => exact .load listed loaded
  | ok answer =>
    obtain ⟨parser, didParse⟩ := answer
    cases didParse with
    | false => simp [crunchFile_skip loaded] at threw
    | true =>
      rw [crunchFile_parse loaded] at threw
      cases crunched : desc.crunchFunc parser with
      | error other => exact .crunch listed loaded crunched
      | ok funcResult => simp [crunched, Except.map] at threw

/-- A pass that throws has a file among its own at which it does. -/
theorem Failure.of_crunchFiles {env : Environment P} {desc : CruncherDesc P R}
    {files : List DirectoryEntry} {exception : Exception}
    (threw : crunchFiles env desc files = .error exception) : Failure env desc workers files := by
  by_contra calm
  -- Without a failing file the pass would end well.
  have treated : ∀ fileEntry ∈ files, ∃ result, crunchFile env desc fileEntry = .ok result := by
    intro fileEntry listed
    cases treated : crunchFile env desc fileEntry with
    | ok result => exact ⟨result, rfl⟩
    | error other => exact absurd (Failure.of_crunchFile listed treated) calm
  obtain ⟨results, passed⟩ := (crunchFiles_ok_iff files).mpr treated
  simp [passed] at threw

/-- All files in the queues of the threads. -/
def queuedFiles (queues : Fin workers → List DirectoryEntry) : List DirectoryEntry :=
  (List.finRange workers).flatMap queues

/-- A file of one queue is a queued file. -/
theorem mem_queuedFiles {queues : Fin workers → List DirectoryEntry} {k : Fin workers}
    {fileEntry : DirectoryEntry} (queued : fileEntry ∈ queues k) :
    fileEntry ∈ queuedFiles queues :=
  List.mem_flatMap.mpr ⟨k, List.mem_finRange k, queued⟩

namespace CrunchState

/-- What every reachable state satisfies. -/
structure Inv (env : Environment P) (desc : CruncherDesc P R)
    (queues : Fin workers → List DirectoryEntry) (state : CrunchState P R workers) : Prop where
  queuesKept : state.fileEntryQueues = queues
  workersSound : ∀ k, (state.worker k).Sound env desc (queues k)
  unstarted : ∀ k, (state.worker k).pc = .unstarted ↔ state.main.started workers ≤ k.val
  joinable : ∀ k, state.joinable k = true ↔
    state.main.joined workers ≤ k.val ∧ k.val < state.main.started workers
  futureValid : ∀ k, state.futureValid k = true ↔
    state.main.taken workers ≤ k.val ∧ k.val < state.main.started workers
  checked : ∀ k : Fin workers, k.val < state.main.checked workers →
    (state.worker k).promise.isSome = true
  gathered : state.main.gathered =
    ((List.finRange workers).take (state.main.taken workers)).flatMap fun k =>
      (queues k).filterMap (crunchResult env desc)
  constructed : ∀ i, i < state.main.started workers → env.startThread i = .ok ()
  thrown : ∀ exception, state.main = .thrown exception →
    0 < workers ∧ env.startThread 0 = .error exception
  failed : state.terminated = true → Failure env desc workers (queuedFiles queues)

variable {env : Environment P} {desc : CruncherDesc P R}
  {queues : Fin workers → List DirectoryEntry} {state : CrunchState P R workers}

/-- Before the first step no thread is started. -/
theorem Inv.start : Inv env desc queues (crunchMachine env desc queues).start where
  queuesKept := rfl
  workersSound k := Worker.Sound.unstarted (queues k)
  unstarted k := by simp [crunchMachine]
  joinable k := by simp [crunchMachine]
  futureValid k := by simp [crunchMachine]
  checked k early := by simp [crunchMachine] at early
  gathered := by simp [crunchMachine]
  constructed i early := by simp [crunchMachine] at early
  thrown exception isThrown := by simp [crunchMachine] at isThrown
  failed ended := by simp [crunchMachine] at ended

/-- The process may be ended where there is a failure. -/
theorem Inv.terminate (inv : state.Inv env desc queues)
    (failure : Failure env desc workers (queuedFiles queues)) :
    Inv env desc queues { state with terminated := true } :=
  -- Nothing else looks at the flag.
  ⟨inv.queuesKept, inv.workersSound, inv.unstarted, inv.joinable, inv.futureValid, inv.checked,
    inv.gathered, inv.constructed, inv.thrown, fun _ => failure⟩

/-- The main thread may go to where the same threads are started, joined and read. -/
theorem Inv.goto (inv : state.Inv env desc queues) {pc : MainPc R} (log : List ProgressItem)
    (started : pc.started workers = state.main.started workers)
    (joined : pc.joined workers = state.main.joined workers)
    (taken : pc.taken workers = state.main.taken workers)
    (gathered : pc.gathered = state.main.gathered)
    (checked : ∀ k : Fin workers, k.val < pc.checked workers →
      (state.worker k).promise.isSome = true)
    (stays : ∀ exception, pc ≠ .thrown exception) :
    Inv env desc queues { state with main := pc, log } where
  queuesKept := inv.queuesKept
  workersSound := inv.workersSound
  -- What is said of the threads depends on how many of them are started, joined and read.
  unstarted k := by
    rw [inv.unstarted k]
    simp only [started]
  joinable k := by
    rw [inv.joinable k]
    simp only [started, joined]
  futureValid k := by
    rw [inv.futureValid k]
    simp only [started, taken]
  checked := checked
  gathered := by
    simp only [gathered, taken]
    exact inv.gathered
  constructed i early := inv.constructed i (by simpa only [started] using early)
  -- An exception is never where it goes to.
  thrown exception isThrown := absurd isThrown (stays exception)
  failed := inv.failed

/-- Where the main thread is about to start a thread, the threads in front of it have been started. -/
theorem started_of_spawn {k : Fin workers} (atSpawn : state.main = .spawn k.val) :
    state.main.started workers = k.val := by
  -- The place of the main thread counts the threads it has started.
  have inside := k.isLt
  simp only [atSpawn, MainPc.started]
  omega

/-- A thread that cannot be built ends the process, unless it is the first one. -/
theorem Inv.spawnFails (inv : state.Inv env desc queues) {k : Fin workers}
    (atSpawn : state.main = .spawn k.val) {exception : Exception}
    (built : env.startThread k.val = .error exception) :
    Inv env desc queues (state.leave (.thrown exception)) := by
  have inside := k.isLt
  have countNow := started_of_spawn atSpawn
  unfold leave
  -- The threads started before are still joinable, unless there are none.
  by_cases some_joinable : ∃ iThread, state.joinable iThread = true
  · rw [if_pos some_joinable]
    exact inv.terminate (.thread inside built)
  · rw [if_neg some_joinable]
    have first : k.val = 0 := by
      by_contra later
      apply some_joinable
      refine ⟨⟨0, by omega⟩, (inv.joinable _).mpr ⟨?_, ?_⟩⟩
      · simp [atSpawn]
      · show 0 < state.main.started workers
        omega
    refine ⟨inv.queuesKept, inv.workersSound, ?_, ?_, ?_, by simp, by simp, by simp, ?_,
      inv.failed⟩
    · intro j
      rw [inv.unstarted j, countNow, first]
      rfl
    · intro j
      rw [inv.joinable j, countNow, first]
      simp
    · intro j
      rw [inv.futureValid j, countNow, first]
      simp
    · intro other same
      rw [first] at built
      cases same
      exact ⟨by omega, built⟩

/-- Starting the next thread keeps the invariant. -/
theorem Inv.spawnStarts (inv : state.Inv env desc queues) {k : Fin workers}
    (atSpawn : state.main = .spawn k.val) (built : env.startThread k.val = .ok ()) :
    Inv env desc queues { state with
      worker := Function.update state.worker k { state.worker k with
        fileEntryQueue := state.fileEntryQueues k, pc := .pop }
      futureValid := Function.update state.futureValid k true
      joinable := Function.update state.joinable k true
      main := .spawn (k + 1) } := by
  have inside := k.isLt
  have countNow := started_of_spawn atSpawn
  have unstarted : (state.worker k).pc = .unstarted := by
    rw [inv.unstarted k, countNow]
  have countNext : (MainPc.spawn (R := R) (k.val + 1)).started workers = k.val + 1 := by
    simp only [MainPc.started]
    omega
  -- Only what concerns the new thread changes.
  refine ⟨inv.queuesKept, ?_, ?_, ?_, ?_, by simp, by simp, ?_, by simp, inv.failed⟩
  · apply (Function.forall_update_iff state.worker fun j worker =>
      worker.Sound env desc (queues j)).mpr
    refine ⟨?_, fun j _ => inv.workersSound j⟩
    rw [inv.queuesKept]
    exact (inv.workersSound k).start unstarted
  · rw [countNext]
    apply (Function.forall_update_iff state.worker fun j worker =>
      worker.pc = .unstarted ↔ k.val + 1 ≤ j.val).mpr
    refine ⟨by simp, ?_⟩
    intro j other
    have apart := Fin.val_ne_of_ne other
    rw [inv.unstarted j, countNow]
    omega
  · rw [countNext]
    apply (Function.forall_update_iff state.joinable fun j joinable =>
      joinable = true ↔ 0 ≤ j.val ∧ j.val < k.val + 1).mpr
    refine ⟨by simp, ?_⟩
    intro j other
    have apart := Fin.val_ne_of_ne other
    rw [inv.joinable j, countNow, atSpawn]
    simp only [MainPc.joined]
    omega
  · rw [countNext]
    apply (Function.forall_update_iff state.futureValid fun j valid =>
      valid = true ↔ 0 ≤ j.val ∧ j.val < k.val + 1).mpr
    refine ⟨by simp, ?_⟩
    intro j other
    have apart := Fin.val_ne_of_ne other
    rw [inv.futureValid j, countNow, atSpawn]
    simp only [MainPc.taken]
    omega
  · intro i early
    rw [countNext] at early
    by_cases same : i = k.val
    · subst same
      exact built
    · exact inv.constructed i (by omega)

/-- Joining the next thread keeps the invariant. -/
theorem Inv.joins (inv : state.Inv env desc queues) {k : Fin workers}
    (atJoin : state.main = .join k.val) :
    Inv env desc queues { state with
      joinable := Function.update state.joinable k false, main := .join (k + 1) } := by
  -- One more thread is joined, and everything else stays as it is.
  have inside := k.isLt
  refine ⟨inv.queuesKept, inv.workersSound, ?_, ?_, ?_, ?_, by simp, ?_, by simp, inv.failed⟩
  · simpa [atJoin] using inv.unstarted
  · apply (Function.forall_update_iff state.joinable fun j joinable =>
      joinable = true ↔ min (k.val + 1) workers ≤ j.val ∧ j.val < workers).mpr
    refine ⟨by simp, ?_⟩
    intro j other
    have apart := Fin.val_ne_of_ne other
    rw [inv.joinable j, atJoin]
    simp only [MainPc.joined, MainPc.started]
    omega
  · simpa [atJoin] using inv.futureValid
  · simpa [atJoin] using inv.checked
  · simpa [atJoin] using inv.constructed

/-- The future the main thread is about to read was not read before. -/
theorem Inv.valid_of_get (inv : state.Inv env desc queues) {k : Fin workers} {results : List R}
    (atGet : state.main = .get k.val results) : state.futureValid k = true := by
  -- Only the futures of the threads in front of it were read.
  have inside := k.isLt
  rw [inv.futureValid k, atGet]
  simp only [MainPc.taken, MainPc.started]
  omega

/-- Reading the next future appends the results of the thread's whole queue. -/
theorem Inv.reads (inv : state.Inv env desc queues) {k : Fin workers}
    {results threadFutureResult : List R} (atGet : state.main = .get k.val results)
    (set : (state.worker k).promise = some threadFutureResult) :
    Inv env desc queues { state with
      futureValid := Function.update state.futureValid k false
      main := .get (k + 1) (results ++ threadFutureResult) } := by
  have inside := k.isLt
  refine ⟨inv.queuesKept, inv.workersSound, ?_, ?_, ?_, ?_, ?_, ?_, by simp, inv.failed⟩
  · simpa [atGet] using inv.unstarted
  · simpa [atGet] using inv.joinable
  · apply (Function.forall_update_iff state.futureValid fun j valid =>
      valid = true ↔ min (k.val + 1) workers ≤ j.val ∧ j.val < workers).mpr
    refine ⟨by simp, ?_⟩
    intro j other
    have apart := Fin.val_ne_of_ne other
    rw [inv.futureValid j, atGet]
    simp only [MainPc.taken, MainPc.started]
    omega
  · simpa [atGet] using inv.checked
  · have before := inv.gathered
    have now : min k.val workers = k.val := by omega
    have later : min (k.val + 1) workers = k.val + 1 := by omega
    simp only [atGet, MainPc.gathered, MainPc.taken, now] at before
    simp only [MainPc.gathered, MainPc.taken, later]
    -- The results of one more queue stand behind those of the queues in front of it.
    have bound : k.val < (List.finRange workers).length := by simp
    rw [List.take_succ_eq_append_getElem bound, List.flatMap_append, ← before]
    simp [crunchFiles_ok ((inv.workersSound k).promise_eq set)]
  · simpa [atGet] using inv.constructed

/-- Leaving the crunch behind the last future keeps the invariant. -/
theorem Inv.returns (inv : state.Inv env desc queues) {i : Nat} {results : List R}
    (atGet : state.main = .get i results) (past : workers ≤ i) :
    Inv env desc queues (state.leave (.returned results)) := by
  have all : min i workers = workers := by omega
  -- All threads are joined, so destroying them is harmless.
  have none_joinable : ¬ ∃ iThread, state.joinable iThread = true := by
    intro ⟨k, joinable⟩
    have bounds := (inv.joinable k).mp joinable
    simp only [atGet, MainPc.joined, MainPc.started] at bounds
    omega
  have ready := inv.checked
  simp only [atGet, MainPc.checked] at ready
  simp only [leave, if_neg none_joinable]
  apply inv.goto state.log
  case checked => exact ready
  all_goals simp [atGet, all]

/-- Every move of the main thread keeps the invariant. -/
theorem Inv.mainMove (inv : state.Inv env desc queues) {next : CrunchState P R workers}
    (move : state.MainMove env next) : Inv env desc queues next := by
  cases move with
  | starts k atSpawn built => exact inv.spawnStarts atSpawn built
  | startFails k atSpawn built => exact inv.spawnFails atSpawn built
  | joins k atJoin ended => exact inv.joins atJoin
  | reads k atGet valid set => exact inv.reads atGet set
  | allRead atGet past => exact inv.returns atGet past
  | readFails k atGet invalid =>
    -- No future is read twice.
    simp [inv.valid_of_get atGet] at invalid
  | findsReady k atCheck ready =>
    apply inv.goto state.log
    case checked =>
      -- The future just found ready joins the ones found ready before it.
      intro j early
      simp only [MainPc.checked] at early
      by_cases same : j = k
      · rw [same]
        exact ready
      · apply inv.checked j
        have apart := Fin.val_ne_of_ne same
        simp only [atCheck, MainPc.checked]
        omega
    all_goals simp [atCheck]
  | allReady atCheck past =>
    -- The whole pass over the futures has found them ready.
    have all := inv.checked
    simp only [atCheck, MainPc.checked, Nat.min_eq_right past] at all
    apply inv.goto state.log
    case checked => exact all
    all_goals simp [atCheck]
  | allJoined atJoin past =>
    have all := inv.checked
    simp only [atJoin, MainPc.checked] at all
    apply inv.goto state.log
    case checked => exact all
    all_goals simp [atJoin, past]
  | allStarted atSpawn past =>
    apply inv.goto state.log
    all_goals simp [atSpawn, past]
  | findsRunning k atCheck =>
    apply inv.goto state.log
    all_goals simp [atCheck]
  | logs k atLog =>
    apply inv.goto
    all_goals simp [atLog]
  | allLogged atLog =>
    apply inv.goto state.log
    all_goals simp [atLog]

/-- Every move of a worker thread keeps the invariant. -/
theorem Inv.workerMove (inv : state.Inv env desc queues) {k : Fin workers} {next : Worker P R}
    (move : (state.worker k).Move env desc (.ok next)) :
    Inv env desc queues { state with worker := Function.update state.worker k next } := by
  -- The main thread sees nothing of a worker but its promise, which stays set.
  obtain ⟨started, startedNext⟩ := move.started
  refine ⟨inv.queuesKept, ?_, ?_, inv.joinable, inv.futureValid, ?_, inv.gathered, inv.constructed,
    inv.thrown, inv.failed⟩
  · apply (Function.forall_update_iff state.worker fun j worker =>
      worker.Sound env desc (queues j)).mpr
    exact ⟨(inv.workersSound k).move move, fun j _ => inv.workersSound j⟩
  · apply (Function.forall_update_iff state.worker fun j worker =>
      worker.pc = .unstarted ↔ state.main.started workers ≤ j.val).mpr
    refine ⟨?_, fun j _ => inv.unstarted j⟩
    rw [← inv.unstarted k]
    simp [started, startedNext]
  · apply (Function.forall_update_iff state.worker fun j worker =>
      j.val < state.main.checked workers → worker.promise.isSome = true).mpr
    exact ⟨fun early => move.promise_kept (inv.checked k early), fun j _ => inv.checked j⟩

/-- Every step of every thread keeps the invariant. -/
theorem Inv.step (inv : state.Inv env desc queues) {agent : Agent workers}
    {next : CrunchState P R workers} (moved : state.step env desc agent = some next) :
    Inv env desc queues next := by
  cases step_move moved with
  | main move => exact inv.mainMove move
  | worker k move => exact inv.workerMove move
  | ends k move =>
    -- An exception can only come from a file of the worker's own queue.
    have threw := (inv.workersSound k).error_eq move
    have failure : Failure env desc workers (queues k) := .of_crunchFiles threw
    exact inv.terminate (failure.mono fun _ queued => mem_queuedFiles queued)

/-- Every reachable state satisfies the invariant. -/
theorem Inv.reachable (reachable : (crunchMachine env desc queues).Reachable state) :
    state.Inv env desc queues :=
  reachable.invariant Inv.start fun _ _ _ inv moved => inv.step moved

/-- Whatever the schedule, a crunch that returns gathers the results of the queues in their order. -/
theorem Inv.returned_eq (inv : state.Inv env desc queues) {results : List R}
    (returned : state.main = .returned results) :
    results = (List.finRange workers).flatMap fun k =>
      (queues k).filterMap (crunchResult env desc) := by
  -- All futures were read.
  have all := inv.gathered
  simpa [returned, MainPc.gathered, MainPc.taken, List.take_of_length_le] using all

end CrunchState

end SlippCrunch
