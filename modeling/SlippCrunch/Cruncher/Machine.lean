import SlippCrunch.Basis.StepMachine
import SlippCrunch.Cruncher.Queues

/-! The main thread and the worker threads of one crunch, taking their steps in any order. -/

namespace SlippCrunch

/-- What the crunch is asked to do. -/
structure CruncherDesc (P R : Type) where
  crunchFunc : P → Except Exception R
  path : Path
  isRecursive : Bool := false

/-- What the crunch is given by the parser and by the system. -/
structure Environment (P : Type) where
  /-- Instantiate a parser at a debug level. -/
  newParser : Nat → P
  /-- Load a replay file, telling whether it could be parsed. -/
  load : P → Path → Except Exception (P × Bool)
  /-- Construct the worker thread of an index. -/
  startThread : Nat → Except Exception Unit

/-- Where a worker thread stands. -/
inductive WorkerPc (P : Type) where
  | unstarted
  | pop
  | load (fileEntry : DirectoryEntry)
  | crunch (parser : P)
  | readCount
  | storeCount (count : Nat)
  | setValue
  | leaving
  | finished
  deriving DecidableEq

/-- A worker thread, with the counter and the promise it alone writes. -/
structure Worker (P R : Type) where
  pc : WorkerPc P := .unstarted
  fileEntryQueue : List DirectoryEntry := []
  results : List R := []
  processedFileCount : Nat := 0
  promise : Option (List R) := none

/-- Where the main thread stands, each loop over the threads being left at the first index past it. -/
inductive MainPc (R : Type) where
  | spawn (iThread : Nat)
  | check (iThread : Nat)
  | log (iThread : Nat)
  | join (iThread : Nat)
  | get (iThread : Nat) (results : List R)
  | returned (results : List R)
  | thrown (exception : Exception)

/-- What is printed about one thread in a line of the progress log. -/
structure ProgressItem where
  iThread : Nat
  threadProcessedFileCount : Nat
  threadFileQueueSize : Nat
  deriving DecidableEq, Repr

/-- The state of all threads of a crunch. -/
structure CrunchState (P R : Type) (workers : Nat) where
  fileEntryQueues : Fin workers → List DirectoryEntry
  worker : Fin workers → Worker P R
  /-- The future of a thread is there and was not read yet. -/
  futureValid : Fin workers → Bool
  /-- The thread was started and is not joined yet. -/
  joinable : Fin workers → Bool
  main : MainPc R
  log : List ProgressItem
  /-- The process was ended by force. -/
  terminated : Bool

/-- The threads that take turns. -/
inductive Agent (workers : Nat) where
  | main
  | worker (iThread : Fin workers)
  deriving DecidableEq

variable {P R : Type} {workers : Nat} (env : Environment P) (desc : CruncherDesc P R)

/-- One step of a worker thread, absent when it stands still, and an error when an exception leaves it. -/
def Worker.step (worker : Worker P R) : Option (Except Exception (Worker P R)) :=
  match worker.pc with
  | .unstarted | .finished => none
  | .pop =>
    match worker.fileEntryQueue with
    | [] => some (.ok { worker with pc := .setValue })
    | fileEntry :: rest =>
      some (.ok { worker with fileEntryQueue := rest, pc := .load fileEntry })
  | .load fileEntry => some do
    let (parser, didParse) ← env.load (env.newParser 0) fileEntry.path
    -- A file that could not be parsed is skipped.
    return { worker with pc := if didParse then .crunch parser else .pop }
  | .crunch parser => some do
    let funcResult ← desc.crunchFunc parser
    return { worker with results := worker.results ++ [funcResult], pc := .readCount }
  -- The counter is loaded in one step and stored in another.
  | .readCount => some (.ok { worker with pc := .storeCount worker.processedFileCount })
  | .storeCount count => some (.ok { worker with processedFileCount := count + 1, pc := .pop })
  | .setValue => some (.ok { worker with promise := some worker.results, pc := .leaving })
  | .leaving => some (.ok { worker with pc := .finished })

/-- What reading a future without shared state throws. -/
def noState : Exception := { what := "no state" }

namespace CrunchState

variable (state : CrunchState P R workers)

/-- The main thread leaves the crunch, destroying the thread objects on its way. -/
def leave (outcome : MainPc R) : CrunchState P R workers :=
  -- Destroying a thread that is still joinable ends the process.
  if ∃ iThread, state.joinable iThread = true then { state with terminated := true }
  else { state with main := outcome }

/-- The main thread constructs the promise, the future and the thread of one index. -/
def spawn (iThread : Fin workers) : CrunchState P R workers :=
  match env.startThread iThread with
  | .error exception => state.leave (.thrown exception)
  | .ok () =>
    -- The thread receives a copy of its queue.
    let started := { state.worker iThread with
      fileEntryQueue := state.fileEntryQueues iThread, pc := .pop }
    { state with
      worker := Function.update state.worker iThread started
      futureValid := Function.update state.futureValid iThread true
      joinable := Function.update state.joinable iThread true
      main := .spawn (iThread + 1) }

/-- The main thread looks whether one future is ready, and goes logging if it is not. -/
def checkReady (iThread : Fin workers) : CrunchState P R workers :=
  if (state.worker iThread).promise.isSome then { state with main := .check (iThread + 1) }
  else { state with main := .log 0 }

/-- The main thread prints the progress of one thread. -/
def logProgress (iThread : Fin workers) : CrunchState P R workers :=
  let item :=
    { iThread
      threadProcessedFileCount := (state.worker iThread).processedFileCount
      threadFileQueueSize := (state.fileEntryQueues iThread).length }
  { state with log := state.log ++ [item], main := .log (iThread + 1) }

/-- The main thread joins one thread, waiting until that thread is finished. -/
def joinThread (iThread : Fin workers) : Option (CrunchState P R workers) :=
  match (state.worker iThread).pc with
  | .finished =>
    some { state with
      joinable := Function.update state.joinable iThread false, main := .join (iThread + 1) }
  | _ => none

/-- The main thread takes the value of one future, waiting until it is set, and appends it. -/
def getFuture (iThread : Fin workers) (results : List R) : Option (CrunchState P R workers) :=
  if state.futureValid iThread then
    match (state.worker iThread).promise with
    | some threadFutureResult =>
      some { state with
        futureValid := Function.update state.futureValid iThread false
        main := .get (iThread + 1) (results ++ threadFutureResult) }
    | none => none
  else some (state.leave (.thrown noState))

/-- One step of the main thread, absent when it waits or has left the crunch. -/
def mainStep : Option (CrunchState P R workers) :=
  match state.main with
  | .spawn i =>
    if inside : i < workers then some (state.spawn env ⟨i, inside⟩)
    else some { state with main := .check 0 }
  | .check i =>
    if inside : i < workers then some (state.checkReady ⟨i, inside⟩)
    else some { state with main := .join 0 }
  | .log i =>
    if inside : i < workers then some (state.logProgress ⟨i, inside⟩)
    else some { state with main := .check 0 }
  | .join i =>
    if inside : i < workers then state.joinThread ⟨i, inside⟩
    else some { state with main := .get 0 [] }
  | .get i results =>
    if inside : i < workers then state.getFuture ⟨i, inside⟩ results
    else some (state.leave (.returned results))
  | .returned _ | .thrown _ => none

/-- One step of one worker thread. -/
def workerStep (iThread : Fin workers) : Option (CrunchState P R workers) :=
  match (state.worker iThread).step env desc with
  | none => none
  | some (.ok next) => some { state with worker := Function.update state.worker iThread next }
  -- An exception that leaves a thread ends the process.
  | some (.error _) => some { state with terminated := true }

/-- One step of one thread, unless the process was ended. -/
def step (agent : Agent workers) : Option (CrunchState P R workers) :=
  if state.terminated then none else
  match agent with
  | .main => state.mainStep env
  | .worker iThread => state.workerStep env desc iThread

end CrunchState

/-- The crunch of the files in the given queues. -/
def crunchMachine (fileEntryQueues : Fin workers → List DirectoryEntry) :
    StepMachine (CrunchState P R workers) (Agent workers) where
  start :=
    { fileEntryQueues
      worker := fun _ => {}
      futureValid := fun _ => false
      joinable := fun _ => false
      main := .spawn 0
      log := []
      terminated := false }
  step := CrunchState.step env desc

/-- The crunch of the entries met in a directory, on a number of worker threads. -/
def crunch (workers : Nat) (entries : List DirectoryEntry) :
    StepMachine (CrunchState P R workers) (Agent workers) :=
  crunchMachine env desc (setupQueues workers entries).fileEntryQueues

end SlippCrunch
