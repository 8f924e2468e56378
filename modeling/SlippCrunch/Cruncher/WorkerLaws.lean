import SlippCrunch.Cruncher.Machine

/-! A worker thread, however often it is interrupted, carries out the sequential pass over its queue. -/

namespace SlippCrunch

variable {P R : Type} (env : Environment P) (desc : CruncherDesc P R)

/-- The treatment of one file: its result, nothing when it does not parse, or an exception. -/
def crunchFile (fileEntry : DirectoryEntry) : Except Exception (Option R) := do
  let (parser, didParse) ← env.load (env.newParser 0) fileEntry.path
  if didParse then return some (← desc.crunchFunc parser)
  return none

/-- The sequential pass over a list of files, which the first exception ends. -/
def crunchFiles : List DirectoryEntry → Except Exception (List R)
  | [] => .ok []
  | fileEntry :: rest => do
    let result ← crunchFile env desc fileEntry
    return result.toList ++ (← crunchFiles rest)

/-- The result of a file that is loaded and crunched without an exception. -/
def crunchResult (fileEntry : DirectoryEntry) : Option R :=
  match crunchFile env desc fileEntry with
  | .ok result => result
  | .error _ => none

variable {env desc}

/-- The treatment of a file whose loading throws. -/
theorem crunchFile_throw {fileEntry : DirectoryEntry} {exception : Exception}
    (loaded : env.load (env.newParser 0) fileEntry.path = .error exception) :
    crunchFile env desc fileEntry = .error exception := by
  simp [crunchFile, loaded, Bind.bind, Except.bind]

/-- The treatment of a file that does not parse. -/
theorem crunchFile_skip {fileEntry : DirectoryEntry} {parser : P}
    (loaded : env.load (env.newParser 0) fileEntry.path = .ok (parser, false)) :
    crunchFile env desc fileEntry = .ok none := by
  simp [crunchFile, loaded, Bind.bind, Except.bind, Pure.pure, Except.pure]

/-- The treatment of a file that parses. -/
theorem crunchFile_parse {fileEntry : DirectoryEntry} {parser : P}
    (loaded : env.load (env.newParser 0) fileEntry.path = .ok (parser, true)) :
    crunchFile env desc fileEntry = (desc.crunchFunc parser).map some := by
  simp [crunchFile, loaded, Bind.bind, Except.bind, Pure.pure, Except.pure, Except.map]

/-- A pass over a first file and the files behind it. -/
theorem crunchFiles_cons (fileEntry : DirectoryEntry) (rest : List DirectoryEntry) :
    crunchFiles env desc (fileEntry :: rest) =
      (crunchFile env desc fileEntry).bind fun result =>
        (crunchFiles env desc rest).bind fun results => .ok (result.toList ++ results) := rfl

/-- A pass that ends well yields the result of every file that has one. -/
theorem crunchFiles_ok {files : List DirectoryEntry} {results : List R}
    (passed : crunchFiles env desc files = .ok results) :
    results = files.filterMap (crunchResult env desc) := by
  -- Every file in turn passed, and prepends its result if there is one.
  induction files generalizing results with
  | nil =>
    cases passed
    rfl
  | cons fileEntry rest ih =>
    rw [crunchFiles_cons] at passed
    cases treated : crunchFile env desc fileEntry with
    | error exception => simp [treated, Except.bind] at passed
    | ok result =>
      cases behind : crunchFiles env desc rest with
      | error exception => simp [treated, behind, Except.bind] at passed
      | ok others =>
        have split : results = result.toList ++ others := by
          simpa [treated, behind, Except.bind, eq_comm] using passed
        rw [split, ih behind]
        cases result with
        | none => simp [crunchResult, treated]
        | some single => simp [crunchResult, treated]

/-- A pass ends well exactly when the treatment of every file does. -/
theorem crunchFiles_ok_iff (files : List DirectoryEntry) :
    (∃ results, crunchFiles env desc files = .ok results) ↔
      ∀ fileEntry ∈ files, ∃ result, crunchFile env desc fileEntry = .ok result := by
  -- The first file's treatment is asked first, then the pass over the others.
  induction files with
  | nil => simp [crunchFiles]
  | cons fileEntry rest ih =>
    rw [List.forall_mem_cons, ← ih, crunchFiles_cons]
    cases treated : crunchFile env desc fileEntry with
    | error exception => simp [Except.bind]
    | ok result =>
      cases behind : crunchFiles env desc rest with
      | error exception => simp [Except.bind]
      | ok others => simp [Except.bind]

namespace Worker

variable (env desc) in
/-- The moves of a worker thread, with what each of them found. -/
inductive Move (worker : Worker P R) : Except Exception (Worker P R) → Prop where
  | exhaust (pc : worker.pc = .pop) (queue : worker.fileEntryQueue = []) :
      Move worker (.ok { worker with pc := .setValue })
  | take {fileEntry : DirectoryEntry} {rest : List DirectoryEntry} (pc : worker.pc = .pop)
      (queue : worker.fileEntryQueue = fileEntry :: rest) :
      Move worker (.ok { worker with fileEntryQueue := rest, pc := .load fileEntry })
  | loadThrows {fileEntry : DirectoryEntry} {exception : Exception}
      (pc : worker.pc = .load fileEntry)
      (loaded : env.load (env.newParser 0) fileEntry.path = .error exception) :
      Move worker (.error exception)
  | skip {fileEntry : DirectoryEntry} {parser : P} (pc : worker.pc = .load fileEntry)
      (loaded : env.load (env.newParser 0) fileEntry.path = .ok (parser, false)) :
      Move worker (.ok { worker with pc := .pop })
  | parse {fileEntry : DirectoryEntry} {parser : P} (pc : worker.pc = .load fileEntry)
      (loaded : env.load (env.newParser 0) fileEntry.path = .ok (parser, true)) :
      Move worker (.ok { worker with pc := .crunch parser })
  | crunchThrows {parser : P} {exception : Exception} (pc : worker.pc = .crunch parser)
      (crunched : desc.crunchFunc parser = .error exception) : Move worker (.error exception)
  | push {parser : P} {funcResult : R} (pc : worker.pc = .crunch parser)
      (crunched : desc.crunchFunc parser = .ok funcResult) :
      Move worker (.ok { worker with results := worker.results ++ [funcResult], pc := .readCount })
  | readCount (pc : worker.pc = .readCount) :
      Move worker (.ok { worker with pc := .storeCount worker.processedFileCount })
  | storeCount {count : Nat} (pc : worker.pc = .storeCount count) :
      Move worker (.ok { worker with processedFileCount := count + 1, pc := .pop })
  | setValue (pc : worker.pc = .setValue) :
      Move worker (.ok { worker with promise := some worker.results, pc := .leaving })
  | leave (pc : worker.pc = .leaving) : Move worker (.ok { worker with pc := .finished })

/-- A worker makes no other moves. -/
theorem step_move {worker : Worker P R} {answer : Except Exception (Worker P R)}
    (moved : worker.step env desc = some answer) : worker.Move env desc answer := by
  -- The program counter selects the move, and what the move finds decides its kind.
  unfold step at moved
  cases pc : worker.pc with
  | unstarted | finished => simp [pc] at moved
  | pop =>
    cases queue : worker.fileEntryQueue with
    | nil =>
      simp only [pc, queue, Option.some.injEq] at moved
      subst moved
      have move : worker.Move env desc (.ok { worker with pc := .setValue }) := .exhaust pc queue
      simpa only [queue] using move
    | cons fileEntry rest =>
      simp only [pc, queue, Option.some.injEq] at moved
      subst moved
      exact .take pc queue
  | load fileEntry =>
    cases loaded : env.load (env.newParser 0) fileEntry.path with
    | error exception =>
      simp only [pc, loaded, Bind.bind, Except.bind, Option.some.injEq] at moved
      subst moved
      exact .loadThrows pc loaded
    | ok attempt =>
      obtain ⟨parser, didParse⟩ := attempt
      simp only [pc, loaded, Bind.bind, Except.bind, Pure.pure, Except.pure,
        Option.some.injEq] at moved
      subst moved
      cases didParse with
      | false => exact .skip pc loaded
      | true => exact .parse pc loaded
  | crunch parser =>
    cases crunched : desc.crunchFunc parser with
    | error exception =>
      simp only [pc, crunched, Bind.bind, Except.bind, Option.some.injEq] at moved
      subst moved
      exact .crunchThrows pc crunched
    | ok funcResult =>
      simp only [pc, crunched, Bind.bind, Except.bind, Pure.pure, Except.pure,
        Option.some.injEq] at moved
      subst moved
      exact .push pc crunched
  | readCount =>
    simp only [pc, Option.some.injEq] at moved
    subst moved
    exact .readCount pc
  | storeCount count =>
    simp only [pc, Option.some.injEq] at moved
    subst moved
    exact .storeCount pc
  | setValue =>
    simp only [pc, Option.some.injEq] at moved
    subst moved
    exact .setValue pc
  | leaving =>
    simp only [pc, Option.some.injEq] at moved
    subst moved
    exact .leave pc

/-- Only a worker that was not started or is finished stands still. -/
theorem step_none {worker : Worker P R} (stuck : worker.step env desc = none) :
    worker.pc = .unstarted ∨ worker.pc = .finished := by
  -- Every other program counter has a step, whatever that step answers.
  unfold step at stuck
  cases pc : worker.pc with
  | unstarted => exact .inl rfl
  | finished => exact .inr rfl
  | pop => cases queue : worker.fileEntryQueue <;> simp [pc, queue] at stuck
  | load fileEntry | crunch parser | readCount | storeCount count | setValue | leaving =>
    simp [pc] at stuck

variable (env desc) in
/-- What a worker still has to add to its results. -/
def remaining (worker : Worker P R) : Except Exception (List R) :=
  match worker.pc with
  | .unstarted | .pop | .readCount | .storeCount _ => crunchFiles env desc worker.fileEntryQueue
  | .load fileEntry => crunchFiles env desc (fileEntry :: worker.fileEntryQueue)
  | .crunch parser => (desc.crunchFunc parser).bind fun funcResult =>
    (crunchFiles env desc worker.fileEntryQueue).map (funcResult :: ·)
  | .setValue | .leaving | .finished => .ok []

variable (env desc) in
/-- What a worker will end with, its results or an exception, when nobody stops it. -/
def outcome (worker : Worker P R) : Except Exception (List R) :=
  (worker.remaining env desc).map (worker.results ++ ·)

/-- A move of a worker changes nothing about how the worker will end. -/
theorem Move.outcome {worker next : Worker P R} (move : worker.Move env desc (.ok next)) :
    next.outcome env desc = worker.outcome env desc := by
  -- Each move takes one file, or one result, from what remains to what was done.
  cases move with
  | exhaust pc queue => simp [Worker.outcome, remaining, pc, queue, crunchFiles]
  | take pc queue => simp [Worker.outcome, remaining, pc, queue]
  | skip pc loaded =>
    have skipped : crunchFile env desc _ = _ := crunchFile_skip loaded
    simp only [Worker.outcome, remaining, pc, crunchFiles_cons, skipped, Except.bind]
    cases crunchFiles env desc worker.fileEntryQueue with
    | error exception => rfl
    | ok others => rfl
  | parse pc loaded =>
    have taken : crunchFile env desc _ = _ := crunchFile_parse loaded
    simp only [Worker.outcome, remaining, pc, crunchFiles_cons, taken]
    cases desc.crunchFunc _ with
    | error exception => rfl
    | ok funcResult =>
      cases crunchFiles env desc worker.fileEntryQueue with
      | error exception => rfl
      | ok others => rfl
  | push pc crunched =>
    simp only [Worker.outcome, remaining, pc, crunched, Except.bind]
    cases crunchFiles env desc worker.fileEntryQueue with
    | error exception => rfl
    | ok others => simp [Except.map]
  | readCount pc | storeCount pc | setValue pc | leave pc =>
    simp [Worker.outcome, remaining, pc]

/-- An exception that leaves a worker is the one the worker was bound to end with. -/
theorem Move.outcome_error {worker : Worker P R} {exception : Exception}
    (move : worker.Move env desc (.error exception)) :
    worker.outcome env desc = .error exception := by
  -- Only loading and crunching throw.
  cases move with
  | loadThrows pc loaded =>
    have threw : crunchFile env desc _ = _ := crunchFile_throw loaded
    simp [Worker.outcome, remaining, pc, crunchFiles_cons, threw, Except.bind, Except.map]
  | crunchThrows pc crunched =>
    simp [Worker.outcome, remaining, pc, crunched, Except.bind, Except.map]

variable (env desc) in
/-- What holds of a worker at any time, for the queue the main thread made for it. -/
structure Sound (queue : List DirectoryEntry) (worker : Worker P R) : Prop where
  fresh : worker.pc = .unstarted → worker.results = [] ∧ worker.promise = none
  refines : worker.pc ≠ .unstarted → worker.outcome env desc = crunchFiles env desc queue
  promised : ∀ results, worker.promise = some results → worker.outcome env desc = .ok results
  kept : worker.pc = .leaving ∨ worker.pc = .finished → worker.promise.isSome = true

/-- A worker that was not started is sound. -/
theorem Sound.unstarted (queue : List DirectoryEntry) :
    ({} : Worker P R).Sound env desc queue where
  fresh _ := ⟨rfl, rfl⟩
  refines started := absurd rfl started
  promised _ set := nomatch set
  kept ended := by simp at ended

/-- A worker started with a copy of its queue is sound. -/
theorem Sound.start {queue : List DirectoryEntry} {worker : Worker P R}
    (sound : worker.Sound env desc queue) (unstarted : worker.pc = .unstarted) :
    Worker.Sound env desc queue { worker with fileEntryQueue := queue, pc := .pop } := by
  -- Nothing was done yet, so all of the queue's files remain.
  obtain ⟨noResults, noPromise⟩ := sound.fresh unstarted
  refine ⟨fun impossible => by simp at impossible, ?_, ?_, fun impossible => by simp at impossible⟩
  · intro _
    simp only [Worker.outcome, remaining, noResults, List.nil_append]
    cases crunchFiles env desc queue with
    | error exception => rfl
    | ok results => rfl
  · intro results set
    simp [noPromise] at set

/-- A worker that moves has been started, before and after the move. -/
theorem Move.started {worker next : Worker P R} (move : worker.Move env desc (.ok next)) :
    worker.pc ≠ .unstarted ∧ next.pc ≠ .unstarted := by
  cases move <;> simp [*]

/-- A promise once set stays set. -/
theorem Move.promise_kept {worker next : Worker P R} (move : worker.Move env desc (.ok next))
    (set : worker.promise.isSome = true) : next.promise.isSome = true := by
  -- No move takes a promise back.
  cases move with
  | setValue => rfl
  | exhaust | take | skip | parse | push | readCount | storeCount | leave => exact set

/-- A sound worker stays sound, whatever it does. -/
theorem Sound.move {queue : List DirectoryEntry} {worker next : Worker P R}
    (sound : worker.Sound env desc queue) (move : worker.Move env desc (.ok next)) :
    next.Sound env desc queue := by
  -- A move keeps the outcome, so only what is new at an end has to be looked at.
  have same := move.outcome
  obtain ⟨started, startedNext⟩ := move.started
  refine ⟨fun unstarted => absurd unstarted startedNext, fun _ => same.trans (sound.refines started),
    ?_, ?_⟩
  · -- A promise is set to the results a worker ends with, and never set again.
    intro results set
    rw [same]
    cases move with
    | setValue pc =>
      simp only [Option.some.injEq] at set
      subst set
      simp [Worker.outcome, remaining, pc, Except.map]
    | exhaust | take | skip | parse | push | readCount | storeCount | leave =>
      exact sound.promised results set
  · intro ended
    cases move with
    | setValue pc => rfl
    | leave pc => exact sound.kept (.inl pc)
    | exhaust | take | skip | parse | push | readCount | storeCount => simp at ended

/-- What a worker promised are the results of the pass over its queue. -/
theorem Sound.promise_eq {queue : List DirectoryEntry} {worker : Worker P R} {results : List R}
    (sound : worker.Sound env desc queue) (set : worker.promise = some results) :
    crunchFiles env desc queue = .ok results := by
  -- A worker that was not started has promised nothing.
  have started : worker.pc ≠ .unstarted := by
    intro unstarted
    simp [(sound.fresh unstarted).2] at set
  rw [← sound.refines started]
  exact sound.promised results set

/-- An exception that leaves a worker ends the pass over its queue. -/
theorem Sound.error_eq {queue : List DirectoryEntry} {worker : Worker P R} {exception : Exception}
    (sound : worker.Sound env desc queue) (move : worker.Move env desc (.error exception)) :
    crunchFiles env desc queue = .error exception := by
  -- A worker that moves was started, and only then is bound to its queue.
  have started : worker.pc ≠ .unstarted := by
    cases move <;> simp [*]
  rw [← sound.refines started]
  exact move.outcome_error

end Worker

end SlippCrunch
