import SlippCrunch.Cruncher.Invariant

/-! What a move of the main thread changes of the workers and of the log, and which future it reads. -/

namespace SlippCrunch

variable {P R : Type} {workers : Nat} {env : Environment P} {desc : CruncherDesc P R}
  {queues : Fin workers → List DirectoryEntry}

namespace CrunchState

/-- The future that the next step of a thread reads, with the value it finds. -/
def futureRead (state : CrunchState P R workers) (agent : Agent workers) :
    Option (Fin workers × List R) :=
  match agent with
  | .worker _ => none
  | .main =>
    match state.main with
    | .get i _ =>
      if inside : i < workers then
        -- Reading a future twice would throw instead.
        if state.futureValid ⟨i, inside⟩ then
          (state.worker ⟨i, inside⟩).promise.map fun results => (⟨i, inside⟩, results)
        else none
      else none
    | _ => none

/-- The effects a move of the main thread can have beyond its own loops. -/
inductive MainEffect (state next : CrunchState P R workers) : Prop where
  | quiet (worker : next.worker = state.worker) (log : next.log = state.log)
      (taken : next.main.taken workers = state.main.taken workers)
      (read : state.futureRead .main = none)
  | starts (k : Fin workers) (atSpawn : state.main = .spawn k.val)
      (worker : next.worker = Function.update state.worker k { state.worker k with
        fileEntryQueue := state.fileEntryQueues k, pc := .pop })
      (log : next.log = state.log) (taken : next.main.taken workers = state.main.taken workers)
      (read : state.futureRead .main = none)
  | logs (k : Fin workers) (worker : next.worker = state.worker)
      (log : next.log = state.log ++ [{
        iThread := k
        threadProcessedFileCount := (state.worker k).processedFileCount
        threadFileQueueSize := (state.fileEntryQueues k).length }])
      (taken : next.main.taken workers = state.main.taken workers)
      (read : state.futureRead .main = none)
  | reads (k : Fin workers) (threadResults : List R) (worker : next.worker = state.worker)
      (log : next.log = state.log) (promised : (state.worker k).promise = some threadResults)
      (before : state.main.taken workers = k.val) (after : next.main.taken workers = k.val + 1)
      (read : state.futureRead .main = some (k, threadResults))

variable {state : CrunchState P R workers}

/-- Outside of the last loop the main thread reads no future. -/
theorem futureRead_eq_none (elsewhere : ∀ i results, state.main ≠ .get i results) :
    state.futureRead .main = none := by
  -- Only at that place does the main thread look at a future.
  cases pc : state.main with
  | get i results => exact absurd pc (elsewhere i results)
  | _ => simp [futureRead, pc]

/-- Leaving the crunch early has no effect on the workers, whether or not it ends the process. -/
theorem leave_effect {outcome : MainPc R} (taken : outcome.taken workers = state.main.taken workers)
    (read : state.futureRead .main = none) : state.MainEffect (state.leave outcome) := by
  -- Either way only the place of the main thread changes.
  unfold leave
  split
  · exact .quiet rfl rfl rfl read
  · exact .quiet rfl rfl taken read

/-- Every move of the main thread has one of the effects. -/
theorem Inv.mainMove_effect (inv : state.Inv env desc queues) {next : CrunchState P R workers}
    (move : state.MainMove env next) : state.MainEffect next := by
  cases move with
  | starts k atSpawn built =>
    exact .starts k atSpawn rfl rfl (by simp [atSpawn]) (futureRead_eq_none (by simp [atSpawn]))
  | logs k atLog =>
    exact .logs k rfl rfl (by simp [logProgress, atLog]) (futureRead_eq_none (by simp [atLog]))
  | reads k atGet valid set =>
    -- The future read is the first one that was not read before.
    have inside := k.isLt
    refine .reads k _ rfl rfl set ?_ ?_ ?_
    · simp only [atGet, MainPc.taken]
      omega
    · simp only [MainPc.taken]
      omega
    · simp [futureRead, atGet, valid, set]
  | readFails k atGet invalid => simp [inv.valid_of_get atGet] at invalid
  | startFails k atSpawn built =>
    exact leave_effect (by simp [atSpawn]) (futureRead_eq_none (by simp [atSpawn]))
  | allRead atGet past =>
    -- Behind the last future, leaving reads none.
    have noRead : state.futureRead .main = none := by
      simp [futureRead, atGet, Nat.not_lt.mpr past]
    exact leave_effect (by simp [atGet, past]) noRead
  | allStarted atMove | findsReady k atMove | findsRunning k atMove | allReady atMove
  | allLogged atMove | joins k atMove | allJoined atMove =>
    -- All other moves only change where the main thread stands.
    exact .quiet rfl rfl (by simp [atMove]) (futureRead_eq_none (by simp [atMove]))

end CrunchState

end SlippCrunch
