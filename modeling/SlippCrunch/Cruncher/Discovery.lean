import Mathlib.Data.Set.List
import SlippCrunch.Basis.NamedTree
import SlippCrunch.Basis.Outcomes
import SlippCrunch.Cruncher.Invariant

/-! The files a crunch finds in its directory, and the files its description asks for. -/

namespace SlippCrunch

variable {P R : Type}

/-- What a directory holds besides the directories that can be entered. -/
inductive TreeItem where
  | plain (kind : EntryKind) (notDirectory : kind ≠ .directory)
  /-- A directory that cannot be listed, and what opening it throws. -/
  | unreadable (failure : Exception)

/-- A directory with everything below it. -/
structure DirectoryTree where
  contents : NamedTree Name TreeItem
  distinct : contents.Distinct
  /-- What opening the directory itself throws, if it throws. -/
  failure : Option Exception := none

/-- The kind of what stands in a directory. -/
def kindOf : Option TreeItem → EntryKind
  | none | some (.unreadable _) => .directory
  | some (.plain kind _) => kind

/-- What an iterator meets on stopping at an entry and going on from there. -/
def stopsAt (stop : Path × Option TreeItem) : List (Except Exception FoundEntry) :=
  let fileEntry := { path := stop.1, kind := kindOf stop.2 }
  match stop.2 with
  -- A directory is met itself before it turns out that it cannot be entered.
  | some (.unreadable failure) => [.ok fileEntry, .error failure]
  | _ => [.ok fileEntry]

/-- What an iterator meets that enters every directory, but no link to a directory. -/
def recursiveDirectoryIterator (path : Path) (tree : DirectoryTree) :
    List (Except Exception FoundEntry) :=
  match tree.failure with
  | some failure => [.error failure]
  | none => (tree.contents.walk path).flatMap stopsAt

/-- The entry of an iteration, unless the iterator or the first query of the entry throws. -/
def fileEntryOf (found : Except Exception FoundEntry) : Except Exception DirectoryEntry := do
  (← found).status

/-- The queues filled from the directory of a description. -/
def CruncherDesc.setupQueues (desc : CruncherDesc P R) (workers : Nat) (tree : DirectoryTree) :
    Except Exception (QueueSetup workers) :=
  -- The flag of the description is not read.
  (recursiveDirectoryIterator desc.path tree).foldlM
    (fun setup found => do return setup.visit (← fileEntryOf found))
    { fileEntryQueues := fun _ => [], fileCount := 0 }

/-- Everything in a tree can be entered or asked for. -/
structure DirectoryTree.Readable (tree : DirectoryTree) : Prop where
  opened : tree.failure = none
  entered : ∀ below failure, ¬ tree.contents.At below (some (.unreadable failure))
  resolved : ∀ below found, tree.contents.At below found → (kindOf found).failure = none

/-- An iterator meets the entries of a tree, their paths continuing that of the directory. -/
theorem ok_mem_recursiveDirectoryIterator {path : Path} {tree : DirectoryTree}
    {entry : FoundEntry} :
    .ok entry ∈ recursiveDirectoryIterator path tree ↔
      tree.failure = none ∧ ∃ below found, tree.contents.At below found ∧
        entry = { path := path ++ below, kind := kindOf found } := by
  -- Every stop of the walk begins with its entry.
  have first : ∀ stop, .ok entry ∈ stopsAt stop ↔
      entry = { path := stop.1, kind := kindOf stop.2 } := by
    intro stop
    unfold stopsAt
    split <;> simp
  unfold recursiveDirectoryIterator
  cases opened : tree.failure with
  | some failure => simp
  | none =>
    simp only [List.mem_flatMap, first, true_and]
    constructor
    · intro ⟨stop, met, same⟩
      obtain ⟨below, stands, continued⟩ := NamedTree.mem_walk.mp met
      exact ⟨below, stop.2, stands, continued ▸ same⟩
    · intro ⟨below, found, stands, same⟩
      exact ⟨(path ++ below, found), NamedTree.mem_walk.mpr ⟨below, stands, rfl⟩, same⟩

/-- An iterator throws where the directory, or one below it, cannot be opened. -/
theorem error_mem_recursiveDirectoryIterator {path : Path} {tree : DirectoryTree}
    {failure : Exception} :
    .error failure ∈ recursiveDirectoryIterator path tree ↔
      tree.failure = some failure ∨
        tree.failure = none ∧ ∃ below, tree.contents.At below (some (.unreadable failure)) := by
  -- Only a stop at a directory that cannot be listed ends in an error.
  have last : ∀ stop, .error failure ∈ stopsAt stop ↔ stop.2 = some (.unreadable failure) := by
    intro stop
    unfold stopsAt
    split
    · next same => simp [same, eq_comm]
    · next other => simpa using other failure
  unfold recursiveDirectoryIterator
  cases opened : tree.failure with
  | some thrown => simp [eq_comm]
  | none =>
    simp only [List.mem_flatMap, last, reduceCtorEq, true_and, false_or]
    constructor
    · intro ⟨stop, met, closed⟩
      obtain ⟨below, stands, _⟩ := NamedTree.mem_walk.mp met
      exact ⟨below, closed ▸ stands⟩
    · intro ⟨below, stands⟩
      exact ⟨(path ++ below, _), NamedTree.mem_walk.mpr ⟨below, stands, rfl⟩, rfl⟩

/-- The first query of an entry answers exactly for the entries whose status can be asked for. -/
theorem fileEntryOf_ok_iff {found : Except Exception FoundEntry} {fileEntry : DirectoryEntry} :
    fileEntryOf found = .ok fileEntry ↔ found = .ok fileEntry.toFoundEntry := by
  -- The query changes nothing about the entry.
  cases found with
  | error failure => simp [fileEntryOf, Bind.bind, Except.bind]
  | ok entry =>
    change entry.status = .ok fileEntry ↔ _
    unfold FoundEntry.status
    constructor
    · intro answered
      split at answered
      · cases answered
        rfl
      · cases answered
    · intro same
      cases same
      split
      · rfl
      · next asked => cases fileEntry.resolved.symm.trans asked

/-- The queues are set up when every entry answers, and then from all of them. -/
theorem CruncherDesc.setupQueues_ok_iff {desc : CruncherDesc P R} {workers : Nat}
    {tree : DirectoryTree} {setup : QueueSetup workers} :
    desc.setupQueues workers tree = .ok setup ↔
      ∃ entries : List DirectoryEntry,
        recursiveDirectoryIterator desc.path tree = entries.map (.ok ·.toFoundEntry) ∧
          SlippCrunch.setupQueues workers entries = setup := by
  -- The entries that answer are those the iterator met.
  have same : ∀ (met : List (Except Exception FoundEntry)) (entries : List DirectoryEntry),
      met.map fileEntryOf = entries.map .ok ↔ met = entries.map (.ok ·.toFoundEntry) := by
    intro met
    induction met with
    | nil => simp
    | cons found rest ih =>
      intro entries
      cases entries with
      | nil => simp
      | cons fileEntry others => simp [ih others, fileEntryOf_ok_iff]
  refine (Outcomes.foldlM_ok_iff _ _ _ _ _).trans (exists_congr fun entries => ?_)
  rw [same]
  rfl

/-- The queues can be set up exactly from a tree in which nothing throws. -/
theorem CruncherDesc.setupQueues_readable_iff {desc : CruncherDesc P R} {workers : Nat}
    {tree : DirectoryTree} :
    (∃ setup, desc.setupQueues workers tree = .ok setup) ↔ tree.Readable := by
  -- Everything the iterator meets must be an entry that answers.
  have answered : (∃ setup, desc.setupQueues workers tree = .ok setup) ↔
      ∀ found ∈ recursiveDirectoryIterator desc.path tree,
        ∃ fileEntry : DirectoryEntry, .ok fileEntry.toFoundEntry = found := by
    have lists := Set.ext_iff.mp (Set.range_list_map fun fileEntry : DirectoryEntry =>
      (.ok fileEntry.toFoundEntry : Except Exception FoundEntry))
      (recursiveDirectoryIterator desc.path tree)
    simp only [Set.mem_range, Set.mem_ofPred_eq] at lists
    rw [← lists]
    simp only [setupQueues_ok_iff]
    exact ⟨fun ⟨_, entries, met, _⟩ => ⟨entries, met.symm⟩,
      fun ⟨entries, met⟩ => ⟨_, entries, met.symm, rfl⟩⟩
  rw [answered]
  constructor
  · intro all
    have opened : tree.failure = none := by
      by_contra closed
      obtain ⟨failure, closed⟩ := Option.ne_none_iff_exists'.mp closed
      obtain ⟨_, same⟩ := all _ (error_mem_recursiveDirectoryIterator.mpr (.inl closed))
      cases same
    refine ⟨opened, ?_, ?_⟩
    · intro below failure stands
      obtain ⟨_, same⟩ :=
        all _ (error_mem_recursiveDirectoryIterator.mpr (.inr ⟨opened, below, stands⟩))
      cases same
    · intro below found stands
      obtain ⟨fileEntry, same⟩ :=
        all _ (ok_mem_recursiveDirectoryIterator.mpr ⟨opened, below, found, stands, rfl⟩)
      have resolved := fileEntry.resolved
      rwa [Except.ok.inj same] at resolved
  · intro readable found member
    cases found with
    | error failure =>
      rcases error_mem_recursiveDirectoryIterator.mp member with closed | ⟨_, below, stands⟩
      · cases readable.opened.symm.trans closed
      · exact absurd stands (readable.entered below failure)
    | ok entry =>
      obtain ⟨_, below, found, stands, same⟩ := ok_mem_recursiveDirectoryIterator.mp member
      have resolved := readable.resolved below found stands
      exact ⟨{ toFoundEntry := entry, resolved := by rw [same]; exact resolved }, rfl⟩

/-- No entry is met twice. -/
theorem recursiveDirectoryIterator_nodup {path : Path} {tree : DirectoryTree}
    {entries : List DirectoryEntry} (opened : tree.failure = none)
    (met : recursiveDirectoryIterator path tree = entries.map (.ok ·.toFoundEntry)) :
    entries.Nodup := by
  -- Even the paths alone are all different, since each stop of the walk gives its path once.
  let paths := List.filterMap fun found : Except Exception FoundEntry =>
    found.toOption.map FoundEntry.path
  have once : ∀ stop, paths (stopsAt stop) = [stop.1] := by
    intro stop
    simp only [paths, stopsAt]
    split <;> rfl
  have walked : paths (recursiveDirectoryIterator path tree) =
      (tree.contents.walk path).map Prod.fst := by
    simp only [recursiveDirectoryIterator, opened]
    rw [List.map_eq_flatMap, ← List.flatMap_congr fun stop _ => once stop]
    exact List.filterMap_flatMap
  have listed : paths (recursiveDirectoryIterator path tree) =
      entries.map fun fileEntry => fileEntry.path := by
    rw [met]
    exact List.filterMap_map.trans (congrFun List.filterMap_eq_map' entries)
  apply List.Nodup.of_map fun fileEntry => fileEntry.path
  rw [← listed, walked]
  exact NamedTree.walk_nodup tree.distinct path

/-- What makes an entry a replay file: it is no directory, but a file or a link, with the right extension. -/
structure FoundEntry.IsReplay (entry : FoundEntry) : Prop where
  notDirectory : entry.kind ≠ .directory ∧ entry.kind ≠ .symlink .directory
  fileOrLink : entry.kind = .regularFile ∨ ∃ target, entry.kind = .symlink target
  -- The period of the extension is not the first character of the name.
  extension : ∃ above stem, stem ≠ [] ∧ entry.path = above ++ [stem ++ ['.', 's', 'l', 'p']]

/-- An entry has the extension of replays when its filename ends in it behind a nonempty stem. -/
theorem DirectoryEntry.extension_eq_slp_iff (entry : DirectoryEntry) :
    entry.extension = ['.', 's', 'l', 'p'] ↔
      ∃ above stem, stem ≠ [] ∧ entry.path = above ++ [stem ++ ['.', 's', 'l', 'p']] := by
  -- The filename is the last name of the path.
  unfold extension
  rcases List.eq_nil_or_concat' entry.path with empty | ⟨above, filename, split⟩
  · simp [empty]
  · rw [split, List.getLast?_concat]
    change SlippCrunch.extension filename = _ ↔ _
    rw [extension_eq_iff (by decide)]
    constructor
    · intro ⟨_, stem, nonempty, same⟩
      exact ⟨above, stem, nonempty, by rw [same]⟩
    · intro ⟨above', stem, nonempty, same⟩
      have filenames := List.append_inj_right' same rfl
      have filenameIs : filename = stem ++ ['.', 's', 'l', 'p'] := by simpa using filenames
      refine ⟨?_, stem, nonempty, filenameIs⟩
      -- The name of the parent directory is too short.
      intro parent
      have lengths := congrArg List.length (filenameIs.symm.trans parent)
      simp at lengths

/-- The test of the loop accepts the replay files. -/
theorem DirectoryEntry.isSlpFile_iff (entry : DirectoryEntry) :
    entry.isSlpFile = true ↔ entry.IsReplay := by
  -- A name that has this extension has an extension.
  have kinds : (entry.isDirectory = false ∧ (entry.isRegularFile = true ∨ entry.isSymlink = true)) ↔
      (entry.kind ≠ .directory ∧ entry.kind ≠ .symlink .directory) ∧
        (entry.kind = .regularFile ∨ ∃ target, entry.kind = .symlink target) := by
    unfold isDirectory isRegularFile isSymlink
    cases entry.kind with
    | directory | regularFile | other => simp
    | symlink target => cases target <;> simp
  constructor
  · intro accepted
    simp only [isSlpFile, Bool.and_eq_true, Bool.or_eq_true, Bool.not_eq_true', beq_iff_eq]
      at accepted
    obtain ⟨⟨kind, _⟩, suffix⟩ := accepted
    obtain ⟨notDirectory, fileOrLink⟩ := kinds.mp kind
    exact ⟨notDirectory, fileOrLink, entry.extension_eq_slp_iff.mp suffix⟩
  · intro replay
    obtain ⟨notDirectory, fileOrLink⟩ := kinds.mpr ⟨replay.notDirectory, replay.fileOrLink⟩
    have suffix := entry.extension_eq_slp_iff.mpr replay.extension
    simp [isSlpFile, hasExtension, notDirectory, fileOrLink, suffix]

/-- The entries the description asks for: the replay files below its path, at any depth or directly in it. -/
def CruncherDesc.Asks (desc : CruncherDesc P R) (tree : DirectoryTree) (entry : FoundEntry) :
    Prop :=
  ∃ below found, tree.contents.At below found ∧
    entry = { path := desc.path ++ below, kind := kindOf found } ∧ entry.IsReplay ∧
    (desc.isRecursive = false → below.length = 1)

/-- The queues hold what the description asks for, each entry once. -/
structure QueueSetup.HoldsAsked {workers : Nat} (setup : QueueSetup workers)
    (desc : CruncherDesc P R) (tree : DirectoryTree) : Prop where
  once : (queuedFiles setup.fileEntryQueues).Nodup
  asked : ∀ entry : FoundEntry,
    entry ∈ (queuedFiles setup.fileEntryQueues).map DirectoryEntry.toFoundEntry ↔
      desc.Asks tree entry

/-- The crunch fills its queues with what the description asks for. -/
def HonoursDescription (desc : CruncherDesc P R) (tree : DirectoryTree) (workers : Nat) : Prop :=
  ∃ setup, desc.setupQueues workers tree = .ok setup ∧ setup.HoldsAsked desc tree

variable {desc : CruncherDesc P R} {tree : DirectoryTree} {workers : Nat}
  {setup : QueueSetup workers}

/-- The queues hold every replay file below the path, whatever the description says. -/
theorem mem_queuedFiles_iff (some_worker : 0 < workers)
    (filled : desc.setupQueues workers tree = .ok setup) {entry : FoundEntry} :
    entry ∈ (queuedFiles setup.fileEntryQueues).map DirectoryEntry.toFoundEntry ↔
      ∃ below found, tree.contents.At below found ∧
        entry = { path := desc.path ++ below, kind := kindOf found } ∧ entry.IsReplay := by
  -- Dealing the files to the queues loses none of them.
  obtain ⟨entries, met, rfl⟩ := CruncherDesc.setupQueues_ok_iff.mp filled
  have opened := (CruncherDesc.setupQueues_readable_iff.mp ⟨_, filled⟩).opened
  have listed : (∃ fileEntry ∈ entries, fileEntry.toFoundEntry = entry) ↔
      ∃ below found, tree.contents.At below found ∧
        entry = { path := desc.path ++ below, kind := kindOf found } := by
    have iterated : .ok entry ∈ recursiveDirectoryIterator desc.path tree ↔ _ :=
      ok_mem_recursiveDirectoryIterator
    simpa [met, opened] using iterated
  have dealt := fun fileEntry =>
    (setupQueues_perm some_worker entries).mem_iff (a := fileEntry)
  simp only [List.mem_map, queuedFiles, dealt, slpFiles, List.mem_filter,
    DirectoryEntry.isSlpFile_iff]
  constructor
  · rintro ⟨fileEntry, ⟨member, replay⟩, rfl⟩
    obtain ⟨below, found, stands, same⟩ := listed.mp ⟨fileEntry, member, rfl⟩
    exact ⟨below, found, stands, same, replay⟩
  · rintro ⟨below, found, stands, same, replay⟩
    obtain ⟨fileEntry, member, isEntry⟩ := listed.mpr ⟨below, found, stands, same⟩
    exact ⟨fileEntry, ⟨member, isEntry ▸ replay⟩, isEntry⟩

/-- No entry is queued twice. -/
theorem queuedFiles_nodup (some_worker : 0 < workers)
    (filled : desc.setupQueues workers tree = .ok setup) :
    (queuedFiles setup.fileEntryQueues).Nodup := by
  -- The iterator meets no entry twice, and dealing doubles none.
  obtain ⟨entries, met, rfl⟩ := CruncherDesc.setupQueues_ok_iff.mp filled
  rw [queuedFiles, (setupQueues_perm some_worker entries).nodup_iff]
  have opened := (CruncherDesc.setupQueues_readable_iff.mp ⟨_, filled⟩).opened
  exact (recursiveDirectoryIterator_nodup opened met).filter _

/-- The description is honoured when nothing throws, and it is recursive or no replay lies deeper. -/
theorem honoursDescription_iff (processorCount : Nat) :
    HonoursDescription desc tree (workerThreadCount processorCount) ↔
      tree.Readable ∧ (desc.isRecursive = true ∨ ∀ below found, tree.contents.At below found →
        FoundEntry.IsReplay { path := desc.path ++ below, kind := kindOf found } →
        below.length = 1) := by
  have some_worker := workerThreadCount_pos processorCount
  constructor
  · intro ⟨setup, filled, holds⟩
    refine ⟨CruncherDesc.setupQueues_readable_iff.mp ⟨setup, filled⟩, ?_⟩
    cases flag : desc.isRecursive with
    | true => exact .inl rfl
    | false =>
      right
      intro below found stands replay
      -- The file is queued, so it was asked for, and its path says where it lies.
      have asked := holds.asked { path := desc.path ++ below, kind := kindOf found }
      rw [mem_queuedFiles_iff some_worker filled] at asked
      obtain ⟨below', _, _, same, _, direct⟩ := asked.mp ⟨below, found, stands, rfl, replay⟩
      have path : desc.path ++ below = desc.path ++ below' := congrArg FoundEntry.path same
      rw [List.append_cancel_left path]
      exact direct flag
  · intro ⟨readable, harmless⟩
    obtain ⟨setup, filled⟩ := CruncherDesc.setupQueues_readable_iff.mpr readable
    refine ⟨setup, filled, queuedFiles_nodup some_worker filled, ?_⟩
    intro entry
    rw [mem_queuedFiles_iff some_worker filled]
    constructor
    · intro ⟨below, found, stands, same, replay⟩
      refine ⟨below, found, stands, same, replay, ?_⟩
      intro flat
      cases harmless with
      | inl recursive => simp [flat] at recursive
      | inr shallow => exact shallow below found stands (same ▸ replay)
    · intro ⟨below, found, stands, same, replay, _⟩
      exact ⟨below, found, stands, same, replay⟩

/-- A folder that holds nothing but a folder with a replay in it. -/
def nestedTree : DirectoryTree where
  contents :=
    .branch ['s', 'u', 'b'] (.leaf ['a', '.', 's', 'l', 'p'] (.plain .regularFile (by decide)) .nil)
      .nil
  distinct := by simp [NamedTree.Distinct, NamedTree.names]

/-- A description that does not ask for what lies in nested folders. -/
def flatDesc : CruncherDesc Path Path where
  crunchFunc parser := .ok parser
  path := []

/-- The replay in the nested folder. -/
def nestedReplay : FoundEntry where
  path := [['s', 'u', 'b'], ['a', '.', 's', 'l', 'p']]
  kind := .regularFile

/-- Neither folder keeps its contents from the iterator. -/
theorem nestedTree_readable : nestedTree.Readable := by
  -- There are two entries, a folder and a file.
  refine ⟨rfl, ?_, ?_⟩
  · intro below failure stands
    cases stands with
    | inside deeper =>
      cases deeper with
      | behindLeaf behind => cases behind
    | behindBranch behind => cases behind
  · intro below found stands
    cases stands with
    | branch => rfl
    | inside deeper =>
      cases deeper with
      | leaf => rfl
      | behindLeaf behind => cases behind
    | behindBranch behind => cases behind

/-- A replay in a nested folder is queued although the description is not recursive. -/
theorem nestedReplay_queued :
    (∃ setup, flatDesc.setupQueues (workerThreadCount 0) nestedTree = .ok setup ∧
      nestedReplay ∈ (queuedFiles setup.fileEntryQueues).map DirectoryEntry.toFoundEntry) ∧
    ¬ HonoursDescription flatDesc nestedTree (workerThreadCount 0) := by
  have some_worker := workerThreadCount_pos 0
  obtain ⟨setup, filled⟩ :
      ∃ setup, flatDesc.setupQueues (workerThreadCount 0) nestedTree = .ok setup :=
    CruncherDesc.setupQueues_readable_iff.mpr nestedTree_readable
  have replay : nestedReplay.IsReplay := by
    refine ⟨by decide, .inl rfl, [['s', 'u', 'b']], ['a'], by decide, rfl⟩
  have queued := (mem_queuedFiles_iff some_worker filled).mpr
    ⟨_, _, .inside .leaf, rfl, replay⟩
  refine ⟨⟨setup, filled, queued⟩, ?_⟩
  intro ⟨setup', filled', holds⟩
  -- The description asks for one name below its path, and here there are two.
  cases filled.symm.trans filled'
  obtain ⟨below, _, _, same, _, direct⟩ := (holds.asked _).mp queued
  have path : nestedReplay.path = flatDesc.path ++ below := congrArg FoundEntry.path same
  have lengths := congrArg List.length path
  have one := direct rfl
  simp [nestedReplay, flatDesc, one] at lengths

end SlippCrunch
