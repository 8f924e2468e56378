import SlippCrunch.Cruncher.Results

/-! What becomes of an exception thrown while a crunch is running. -/

namespace SlippCrunch

open CrunchState

variable {P R : Type} {workers : Nat} {env : Environment P} {desc : CruncherDesc P R}
  {entries : List DirectoryEntry}

/-- Where something throws, the process survives, and an exception reaches the caller on every schedule. -/
structure FailureReachesCaller (env : Environment P) (desc : CruncherDesc P R) (workers : Nat)
    (entries : List DirectoryEntry) : Prop where
  survives : Failure env desc workers (slpFiles entries) →
    ∀ state, (crunch env desc workers entries).Reachable state → state.terminated = false
  throws : Failure env desc workers (slpFiles entries) →
    ∀ state, (crunch env desc workers entries).Reachable state →
      ∃ later exception, (crunch env desc workers entries).Leads state later ∧
        later.main = .thrown exception

/-- A crunch that returned met none of the points of failure in its queues. -/
theorem CrunchState.Inv.calm_of_returned {queues : Fin workers → List DirectoryEntry}
    {state : CrunchState P R workers} (inv : state.Inv env desc queues) {results : List R}
    (returned : state.main = .returned results) :
    ¬ Failure env desc workers (queuedFiles queues) := by
  -- Every thread was built, and every promise was set by a pass over the whole queue.
  have treated : ∀ fileEntry ∈ queuedFiles queues,
      ∃ result, crunchFile env desc fileEntry = .ok result := by
    intro fileEntry queued
    obtain ⟨k, _, inQueue⟩ := List.mem_flatMap.mp queued
    have set := inv.checked k (by simp [returned, MainPc.checked])
    obtain ⟨threadResults, promised⟩ := Option.isSome_iff_exists.mp set
    have passed := (inv.workersSound k).promise_eq promised
    exact (crunchFiles_ok_iff (queues k)).mp ⟨threadResults, passed⟩ fileEntry inQueue
  intro failure
  cases failure with
  | thread inside built =>
    have constructed := inv.constructed _ (by simpa [returned, MainPc.started] using inside)
    simp [built] at constructed
  | load listed loaded =>
    obtain ⟨result, passed⟩ := treated _ listed
    simp [crunchFile_throw loaded] at passed
  | crunch listed loaded crunched =>
    obtain ⟨result, passed⟩ := treated _ listed
    simp [crunchFile_parse loaded, crunched, Except.map] at passed

/-- Once the first thread can be built, a failure anywhere ends the process on every schedule. -/
theorem crunch_terminates_of_failure (some_worker : 0 < workers)
    (failure : Failure env desc workers (slpFiles entries)) (built : env.startThread 0 = .ok ())
    {state : CrunchState P R workers}
    (reachable : (crunch env desc workers entries).Reachable state) (isOver : state.Over) :
    state.terminated = true := by
  have inv : state.Inv env desc _ := Inv.reachable reachable
  -- The worker that holds the failing file never finishes, so the main thread never returns.
  have queued := failure.mono fun _ listed =>
    (setupQueues_perm some_worker entries).mem_iff.mpr listed
  cases isOver with
  | terminated ended => exact ended
  | returned results returned => exact absurd queued (inv.calm_of_returned returned)
  | thrown exception thrown =>
    have failed := (inv.thrown exception thrown).2
    simp [built] at failed

/-- What holds in every state when not even the first thread can be built. -/
structure NothingStarted (state : CrunchState P R workers) : Prop where
  runs : state.terminated = false
  unstarted : ∀ k, (state.worker k).pc = .unstarted
  unjoinable : ∀ k, state.joinable k = false
  early : state.main = .spawn 0 ∨ ∃ exception, state.main = .thrown exception

/-- No thread is ever started when the first one cannot be built. -/
theorem nothingStarted_of_reachable (some_worker : 0 < workers) {exception : Exception}
    (failed : env.startThread 0 = .error exception) {state : CrunchState P R workers}
    (reachable : (crunch env desc workers entries).Reachable state) : NothingStarted state := by
  -- The main thread leaves at once, and no other thread has a step.
  apply reachable.invariant
  · exact ⟨rfl, fun _ => rfl, fun _ => rfl, .inl rfl⟩
  · intro now agent next holds moved
    have moved : now.step env desc agent = some next := moved
    have none_joinable : ¬ ∃ iThread, now.joinable iThread = true := by
      intro ⟨k, joinable⟩
      simp [holds.unjoinable k] at joinable
    cases agent with
    | worker k =>
      simp [step, holds.runs, workerStep, Worker.step, holds.unstarted k] at moved
    | main =>
      cases holds.early with
      | inl atFirst =>
        simp only [step, holds.runs, Bool.false_eq_true, if_false, mainStep, atFirst,
          dif_pos some_worker, spawn, failed, leave, if_neg none_joinable,
          Option.some.injEq] at moved
        subst moved
        exact ⟨rfl, holds.unstarted, holds.unjoinable, .inr ⟨exception, rfl⟩⟩
      | inr thrown =>
        obtain ⟨other, thrown⟩ := thrown
        simp [step, holds.runs, mainStep, thrown] at moved

/-- A failure reaches the caller only where nothing fails, or the first thread already does. -/
theorem failureReachesCaller_iff (some_worker : 0 < workers) :
    FailureReachesCaller env desc workers entries ↔
      (Failure env desc workers (slpFiles entries) →
        ∃ exception, env.startThread 0 = .error exception) := by
  constructor
  · intro reaches failure
    -- Only the construction of the first thread throws to the caller.
    obtain ⟨later, exception, leads, thrown⟩ := reaches.throws failure _ StepMachine.Reachable.start
    have inv : later.Inv env desc _ := Inv.reachable (StepMachine.Reachable.start.leads leads)
    exact ⟨exception, (inv.thrown exception thrown).2⟩
  · intro first
    refine ⟨?_, ?_⟩
    · intro failure state reachable
      obtain ⟨exception, failed⟩ := first failure
      exact (nothingStarted_of_reachable some_worker failed reachable).runs
    · intro failure state reachable
      obtain ⟨exception, failed⟩ := first failure
      -- There is a way on to the end, and it can only be an exception.
      have inv : state.Inv env desc _ := Inv.reachable reachable
      obtain ⟨later, leads, isOver⟩ := inv.leads_over
      have nothing := nothingStarted_of_reachable some_worker failed (reachable.leads leads)
      cases isOver with
      | terminated ended => simp [nothing.runs] at ended
      | returned results returned =>
        cases nothing.early with
        | inl atFirst => simp [returned] at atFirst
        | inr thrown => simp [returned] at thrown
      | thrown other thrown => exact ⟨later, other, leads, thrown⟩

/-- A system that builds no thread, around a parser that keeps the path of its file. -/
def threadlessEnvironment : Environment Path :=
  { pathEnvironment [] with startThread := fun _ => .error { what := "resource unavailable" } }

/-- When no thread can be built, the caller hears of it. -/
theorem threadless_reaches :
    Failure threadlessEnvironment pathDesc 2 (slpFiles [replay 'a']) ∧
      FailureReachesCaller threadlessEnvironment pathDesc 2 [replay 'a'] :=
  ⟨.thread (by decide : 0 < 2) rfl,
    (failureReachesCaller_iff (by decide)).mpr fun _ => ⟨_, rfl⟩⟩

/-- A parser whose loading throws. -/
def throwingEnvironment : Environment Path :=
  { pathEnvironment [] with load := fun _ _ => .error { what := "unexpected end of file" } }

/-- One file whose loading throws, in the only worker there is, never reaches the caller. -/
theorem throwingReplay_lost :
    ¬ FailureReachesCaller throwingEnvironment pathDesc 1 [replay 'a'] := by
  intro reaches
  have failure : Failure throwingEnvironment pathDesc 1 (slpFiles [replay 'a']) :=
    .load (by decide : replay 'a' ∈ slpFiles [replay 'a']) rfl
  -- Some schedule brings the crunch to its end, which is the end of the process.
  have inv : (crunch throwingEnvironment pathDesc 1 [replay 'a']).start.Inv _ _ _ := Inv.start
  obtain ⟨later, leads, isOver⟩ := inv.leads_over
  have reachable := StepMachine.Reachable.start.leads leads
  have ended := crunch_terminates_of_failure (by decide) failure rfl reachable isOver
  have survived := reaches.survives failure later reachable
  simp [ended] at survived

end SlippCrunch
