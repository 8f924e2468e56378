import SlippCrunch.Basis.RoundRobin
import SlippCrunch.Cruncher.Entries

/-! The queues of files, one for each worker thread, and the loop that fills them in turn. -/

namespace SlippCrunch

/-- The number of worker threads on a machine reporting a number of processors. -/
def workerThreadCount (processorCount : Nat) : Nat :=
  -- One processor is left to the main thread where possible.
  if 2 < processorCount then processorCount - 1 else 1

/-- There is always a worker thread, whatever the machine reports. -/
theorem workerThreadCount_pos (processorCount : Nat) : 0 < workerThreadCount processorCount := by
  -- Up to two processors give one worker, and more of them all but one.
  unfold workerThreadCount
  split
  · omega
  · omega

/-- The variables the loop over the directory entries changes. -/
structure QueueSetup (workers : Nat) where
  fileEntryQueues : Fin workers → List DirectoryEntry
  fileCount : Nat

variable {workers : Nat}

/-- One iteration of the loop: an accepted entry goes to the queue whose turn it is. -/
def QueueSetup.visit (setup : QueueSetup workers) (fileEntry : DirectoryEntry) :
    QueueSetup workers :=
  if fileEntry.isSlpFile then
    { fileEntryQueues := fun iThread =>
        if iThread.val = setup.fileCount % workers
          then setup.fileEntryQueues iThread ++ [fileEntry]
          else setup.fileEntryQueues iThread
      fileCount := setup.fileCount + 1 }
  else setup

/-- The queues filled from the entries in the order they were met. -/
def setupQueues (workers : Nat) (entries : List DirectoryEntry) : QueueSetup workers :=
  entries.foldl QueueSetup.visit { fileEntryQueues := fun _ => [], fileCount := 0 }

/-- The files among the entries, in the order they were met. -/
def slpFiles (entries : List DirectoryEntry) : List DirectoryEntry :=
  entries.filter DirectoryEntry.isSlpFile

/-- The queues deal the files to the workers in turn, and their number is counted. -/
theorem setupQueues_eq (workers : Nat) (entries : List DirectoryEntry) :
    setupQueues workers entries =
      { fileEntryQueues := fun iThread => RoundRobin.hand workers iThread (slpFiles entries)
        fileCount := (slpFiles entries).length } := by
  -- The counter says whose turn it is, and rejected entries leave it alone.
  induction entries using List.reverseRecOn with
  | nil => rfl
  | append_singleton entries entry ih =>
    have visited : setupQueues workers (entries ++ [entry]) =
        (setupQueues workers entries).visit entry := by
      simp [setupQueues, List.foldl_append]
    rw [visited, ih]
    cases accepted : entry.isSlpFile with
    | false => simp [QueueSetup.visit, slpFiles, accepted]
    | true =>
      simp only [QueueSetup.visit, slpFiles, accepted, List.filter_append, List.filter_cons,
        List.filter_nil, if_true, List.length_append, List.length_singleton,
        RoundRobin.hand_concat]
      rfl

/-- The queues together hold every file exactly once. -/
theorem setupQueues_perm (some_worker : 0 < workers) (entries : List DirectoryEntry) :
    ((List.finRange workers).flatMap (setupQueues workers entries).fileEntryQueues).Perm
      (slpFiles entries) := by
  -- The queues are the hands that the files were dealt into.
  rw [setupQueues_eq]
  exact RoundRobin.hands_perm some_worker (slpFiles entries)

end SlippCrunch
