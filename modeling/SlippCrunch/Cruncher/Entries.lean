import SlippCrunch.Slippc.Parser

/-! The entries met by a directory iterator, and the test that picks the replay files among them. -/

namespace SlippCrunch

/-- What a thrown exception says. -/
structure Exception where
  what : String
  deriving DecidableEq, Repr

/-- What a chain of symbolic links ends at. -/
inductive LinkTarget where
  | directory
  | regularFile
  | other
  /-- The link is broken. -/
  | nothing
  /-- Following the link fails, as in a loop of links, and asking what it leads to throws. -/
  | unresolvable (failure : Exception)
  deriving DecidableEq, Repr

/-- What stands at a path, a symbolic link being told apart from its target. -/
inductive EntryKind where
  | directory
  | regularFile
  | symlink (target : LinkTarget)
  | other
  deriving DecidableEq, Repr

/-- What asking for the status of an entry throws, if it throws. -/
def EntryKind.failure : EntryKind → Option Exception
  | .symlink (.unresolvable failure) => some failure
  | _ => none

/-- An entry a directory iterator stops at. -/
structure FoundEntry where
  path : Path
  kind : EntryKind
  deriving DecidableEq, Repr

/-- An entry whose status can be asked for. -/
structure DirectoryEntry extends FoundEntry where
  resolved : kind.failure = none := by decide
  deriving DecidableEq, Repr

/-- The entry behind its first status query, which is whether it is a directory. -/
def FoundEntry.status (entry : FoundEntry) : Except Exception DirectoryEntry :=
  match asked : entry.kind.failure with
  | none => .ok { toFoundEntry := entry, resolved := asked }
  | some failure => .error failure

/-- The part of a filename from its last period on, unless that period starts the name. -/
def extension (filename : Name) : Name :=
  -- A directory's names for itself and for its parent have no extension.
  if filename = ['.'] ∨ filename = ['.', '.'] then [] else
  let suffix := (filename.reverse.takeWhile (· ≠ '.')).reverse
  if suffix.length + 1 < filename.length then '.' :: suffix else []

/-- An extension without a further period is what follows the last one, behind a nonempty stem. -/
theorem extension_eq_iff {filename suffix : Name} (plain : '.' ∉ suffix) :
    extension filename = '.' :: suffix ↔
      filename ≠ ['.', '.'] ∧ ∃ stem, stem ≠ [] ∧ filename = stem ++ '.' :: suffix := by
  -- Reading backwards, the suffix is all that stands in front of the first period.
  constructor
  · intro same
    unfold extension at same
    by_cases special : filename = ['.'] ∨ filename = ['.', '.']
    · simp [special] at same
    · simp only [if_neg special] at same
      rw [not_or] at special
      refine ⟨special.2, ?_⟩
      -- The name splits in front of its last period.
      have split := List.takeWhile_append_dropWhile (p := fun c => decide (c ≠ '.'))
        (l := filename.reverse)
      split at same
      case isFalse => simp at same
      case isTrue longer =>
        simp only [List.cons.injEq, true_and] at same
        cases rest : filename.reverse.dropWhile (fun c => decide (c ≠ '.')) with
        | nil =>
          rw [rest, List.append_nil] at split
          rw [split] at longer
          simp only [List.reverse_reverse] at longer
          omega
        | cons period stem =>
          have isPeriod : period = '.' := by
            have head := List.head?_dropWhile_not (fun c => decide (c ≠ '.')) filename.reverse
            rw [rest] at head
            simpa using head
          subst isPeriod
          have whole := congrArg List.reverse split
          rw [rest, List.reverse_append, same, List.reverse_reverse] at whole
          refine ⟨stem.reverse, ?_, by simpa using whole.symm⟩
          intro empty
          have lengths := congrArg List.length whole
          simp [empty] at lengths
          rw [same] at longer
          omega
  · intro ⟨special, stem, nonempty, same⟩
    have taken : filename.reverse.takeWhile (fun c => decide (c ≠ '.')) = suffix.reverse := by
      rw [same, List.reverse_append, List.reverse_cons, List.append_assoc,
        List.takeWhile_append_of_pos]
      · simp
      · intro c member
        have other : c ≠ '.' := fun period => plain (period ▸ List.mem_reverse.mp member)
        simpa using other
    have longer : suffix.length + 1 < filename.length := by
      have positive := List.length_pos_iff.mpr nonempty
      simp only [same, List.length_append, List.length_cons]
      omega
    have notDot : filename ≠ ['.'] := by
      intro dot
      simp [dot] at longer
    simp only [extension, taken, List.reverse_reverse, notDot, special, or_self, if_false,
      if_pos longer]

example : extension ['a', '.', 'b', '.', 's', 'l', 'p'] = ['.', 's', 'l', 'p'] := by decide

example : extension ['.', 's', 'l', 'p'] = [] := by decide

namespace DirectoryEntry

variable (entry : DirectoryEntry)

/-- The entry is a directory, or a symbolic link to one. -/
def isDirectory : Bool :=
  match entry.kind with
  | .directory | .symlink .directory => true
  | _ => false

/-- The entry is a regular file, or a symbolic link to one. -/
def isRegularFile : Bool :=
  match entry.kind with
  | .regularFile | .symlink .regularFile => true
  | _ => false

/-- The entry is itself a symbolic link. -/
def isSymlink : Bool :=
  match entry.kind with
  | .symlink _ => true
  | _ => false

/-- The extension of the entry's filename. -/
def extension : Name :=
  match entry.path.getLast? with
  | some filename => SlippCrunch.extension filename
  | none => []

/-- The filename has an extension. -/
def hasExtension : Bool := !entry.extension.isEmpty

/-- The entry is a file the crunch takes for a replay. -/
def isSlpFile : Bool :=
  let isFile := !entry.isDirectory && (entry.isRegularFile || entry.isSymlink)
  isFile && entry.hasExtension && entry.extension == ['.', 's', 'l', 'p']

end DirectoryEntry

end SlippCrunch
