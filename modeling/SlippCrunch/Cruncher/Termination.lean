import Mathlib.Data.Prod.Lex
import SlippCrunch.Basis.FairRuns
import SlippCrunch.Cruncher.Failures

/-! Every crunch whose threads all get their turns again and again comes to its end. -/

namespace SlippCrunch

open CrunchState StepMachine

variable {P R : Type} {workers : Nat} {env : Environment P} {desc : CruncherDesc P R}
  {queues : Fin workers → List DirectoryEntry}

/-- A thread that was started and is not finished. -/
def WorkerPc.running : WorkerPc P → Bool
  | .unstarted | .finished => false
  | _ => true

namespace CrunchState

variable {state next : CrunchState P R workers}

/-- Some worker is running. -/
def SomeRunning (state : CrunchState P R workers) : Prop := ∃ k, (state.worker k).pc.running = true

instance : Decidable state.SomeRunning := inferInstanceAs (Decidable (∃ _, _))

/-- The threads that bring the crunch nearer to its end: the running workers, and else the main thread. -/
def Helps (state : CrunchState P R workers) : Agent workers → Prop
  | .worker k => (state.worker k).pc.running = true
  | .main => ¬ state.SomeRunning

/-- The work of all workers. -/
def totalWork (queues : Fin workers → List DirectoryEntry) (state : CrunchState P R workers) : Nat :=
  ∑ k, (state.worker k).work (queues k)

/-- How far the end is: the main thread counts once no worker is running, since it may wait before. -/
def distance (queues : Fin workers → List DirectoryEntry) (state : CrunchState P R workers) :
    ℕ ×ₗ ℕ :=
  toLex (state.totalWork queues, if state.SomeRunning then 0 else state.main.rank workers + 1)

/-- A move of a worker lowers the distance. -/
theorem distance_worker {k : Fin workers} {worker : Worker P R}
    (move : (state.worker k).Move env desc (.ok worker)) :
    distance queues { state with worker := Function.update state.worker k worker } <
      state.distance queues := by
  -- The work of the workers is the leading part of the distance.
  have less : measure queues { state with worker := Function.update state.worker k worker } <
      state.measure queues := work_update_lt move.work_lt
  exact Prod.Lex.toLex_lt_toLex.mpr (.inl (Nat.lt_of_add_lt_add_right less))

/-- A move of the main thread ends the crunch, or leaves the workers as much to do and running. -/
theorem Inv.main_steady (inv : state.Inv env desc queues) (move : state.MainMove env next) :
    next.Over ∨ next.totalWork queues = state.totalWork queues ∧
      ∀ k, (state.worker k).pc.running = true → (next.worker k).pc.running = true := by
  cases move with
  | starts k atSpawn built =>
    -- The worker that is started had no move before, so it is as far from its end as it was.
    have unstarted : (state.worker k).pc = .unstarted := by
      rw [inv.unstarted, atSpawn]
      simp [MainPc.started]
    refine .inr ⟨work_start (congrFun inv.queuesKept k) unstarted, fun j running => ?_⟩
    by_cases same : j = k
    · subst same
      rw [unstarted] at running
      exact absurd running (by simp [WorkerPc.running])
    · simpa [Function.update_of_ne same] using running
  | startFails k atSpawn built => exact .inl (leave_over state (.inr ⟨_, rfl⟩))
  | readFails k atGet invalid => exact .inl (leave_over state (.inr ⟨_, rfl⟩))
  | allRead atGet past => exact .inl (leave_over state (.inl ⟨_, rfl⟩))
  -- All other moves of the main thread leave the workers alone.
  | _ => exact .inr ⟨rfl, fun _ running => running⟩

/-- Once no worker is running, a move of the main thread lowers the distance. -/
theorem Inv.main_forward (inv : state.Inv env desc queues) (runs : ¬ state.Over)
    (noneRunning : ¬ state.SomeRunning) :
    ∃ next, state.step env desc .main = some next ∧
      (next.Over ∨ next.distance queues < state.distance queues) := by
  -- Workers that were started and do not run have finished, so nothing holds the main thread up.
  have finished : ∀ k, (state.worker k).pc ≠ .unstarted → (state.worker k).pc = .finished := by
    intro k started
    by_contra unfinished
    refine noneRunning ⟨k, ?_⟩
    cases pc : (state.worker k).pc with
    | unstarted => exact absurd pc started
    | finished => exact absurd pc unfinished
    | _ => rfl
  obtain ⟨next, moved, progress⟩ := inv.main_progress runs finished
  refine ⟨next, moved, ?_⟩
  cases step_move moved with
  | main move =>
    -- The workers have as much to do as before, so it is the main thread that has less.
    rcases progress, inv.main_steady move with ⟨isOver | less, isOver' | ⟨same, _⟩⟩
    · exact .inl isOver
    · exact .inl isOver
    · exact .inl isOver'
    · have lower : next.main.rank workers < state.main.rank workers := by
        have sums : next.totalWork queues + next.main.rank workers <
            state.totalWork queues + state.main.rank workers := less
        omega
      refine .inr (Prod.Lex.toLex_lt_toLex.mpr (.inr ⟨same, ?_⟩))
      show (if next.SomeRunning then 0 else _) < if state.SomeRunning then 0 else _
      rw [if_neg noneRunning]
      split <;> omega

/-- The running workers, and once there are none the main thread, bring a crunch to its end. -/
theorem crunch_ranking (env : Environment P) (desc : CruncherDesc P R)
    (queues : Fin workers → List DirectoryEntry) :
    Ranking (crunchMachine env desc queues) (Inv env desc queues) Over (distance queues) Helps where
  kept := fun inv moved => inv.step moved
  helper := by
    intro state _ _
    -- A worker that runs is of help, and without one it is the main thread.
    by_cases some : state.SomeRunning
    · obtain ⟨k, running⟩ := some
      exact ⟨.worker k, running⟩
    · exact ⟨.main, some⟩
  forward := by
    intro state agent inv runs helps
    have going : state.terminated = false := by
      cases ended : state.terminated with
      | false => rfl
      | true => exact absurd (.terminated ended) runs
    cases agent with
    | main => exact inv.main_forward runs helps
    | worker k =>
      -- A running worker always has a move, which brings it nearer to its end.
      have running : (state.worker k).pc.running = true := helps
      obtain ⟨next, moved, _⟩ : ∃ next, state.step env desc (.worker k) = some next ∧
          (next.Over ∨ next.measure queues < state.measure queues) := Inv.worker_progress going
        (fun unstarted => by simp [unstarted, WorkerPc.running] at running)
        (fun finished => by simp [finished, WorkerPc.running] at running)
      refine ⟨next, moved, ?_⟩
      cases step_move moved with
      | worker _ move => exact .inr (distance_worker move)
      | ends _ move => exact .inl (.terminated rfl)
  steady := by
    intro state agent next inv runs moved
    cases step_move moved with
    | worker k move => exact .inr (.inl (distance_worker move))
    | ends k move => exact .inl (.terminated rfl)
    | main move =>
      by_cases some : state.SomeRunning
      · -- While workers run, a move of the main thread may bring nothing, but stops none of them.
        rcases inv.main_steady move with isOver | ⟨same, running⟩
        · exact .inl isOver
        · obtain ⟨k, isRunning⟩ := some
          refine .inr (.inr ⟨?_, fun helper helps => ?_⟩)
          · have before : state.SomeRunning := ⟨k, isRunning⟩
            have after : next.SomeRunning := ⟨k, running k isRunning⟩
            rw [distance, distance, same, if_pos before, if_pos after]
          · cases helper with
            | worker j => exact running j helps
            | main => exact absurd ⟨k, isRunning⟩ helps
      · -- Without running workers the move of the main thread is the one that helps.
        obtain ⟨next', moved', progress⟩ := inv.main_forward runs some
        obtain rfl : next = next' := Option.some.inj (moved.symm.trans moved')
        rcases progress with isOver | lower
        · exact .inl isOver
        · exact .inr (.inl lower)

/-- A crunch that is over stays over. -/
theorem Over.kept (isOver : state.Over) {agent : Agent workers}
    (moved : state.step env desc agent = some next) : next.Over := by
  -- The main thread has no step left, and no worker takes one back.
  cases isOver with
  | terminated ended => simp [CrunchState.step, ended] at moved
  | returned results returned =>
    cases step_move moved with
    | main => simp [CrunchState.step, mainStep, returned] at moved
    | worker k move => exact .returned results returned
    | ends k move => exact .terminated rfl
  | thrown exception thrown =>
    cases step_move moved with
    | main => simp [CrunchState.step, mainStep, thrown] at moved
    | worker k move => exact .thrown exception thrown
    | ends k move => exact .terminated rfl

end CrunchState

variable {entries : List DirectoryEntry} {schedule : Nat → Agent workers}

/-- A crunch whose threads all get their turns again and again is over from some turn on. -/
theorem crunch_over (env : Environment P) (desc : CruncherDesc P R) (entries : List DirectoryEntry)
    (fair : Fair schedule) : ∃ turn, ∀ later, turn ≤ later →
      ((crunch env desc workers entries).play schedule
        (crunch env desc workers entries).start later).Over := by
  let queues : Fin workers → List DirectoryEntry := fun k => RoundRobin.hand workers k (slpFiles entries)
  have isMachine : crunch env desc workers entries = crunchMachine env desc queues := crunch_eq
  have ranking := crunch_ranking env desc queues
  rw [← isMachine] at ranking
  -- The ranking needs the invariant, which holds from the start.
  obtain ⟨turn, _, isOver⟩ := ranking.reaches fair 0 (isMachine ▸ Inv.start)
  have kept : ∀ now agent next, CrunchState.Over now →
      (crunch env desc workers entries).step now agent = some next → next.Over :=
    fun now agent next isOver moved =>
      isOver.kept (show now.step env desc agent = some next from moved)
  exact ⟨turn, fun later after => play_stable kept isOver after⟩

/-- A crunch that is over, where nothing throws, has returned. -/
theorem returned_of_calm {state : CrunchState P R workers}
    (reachable : (crunch env desc workers entries).Reachable state) (isOver : state.Over)
    (calm : ¬ Failure env desc workers (slpFiles entries)) :
    state.terminated = false ∧ state.main = .returned (dealtResults env desc workers entries) := by
  have inv : Inv env desc _ state := Inv.reachable (crunch_eq ▸ reachable)
  obtain ⟨results, returned⟩ := inv.returned_of_over (calm_of_dealt calm) isOver
  refine ⟨?_, returned.trans (congrArg _ (inv.returned_eq returned))⟩
  -- The process could only have been ended by a failure.
  cases ended : state.terminated with
  | false => rfl
  | true => exact absurd (inv.failed ended) (calm_of_dealt calm)

/-- A crunch that is over, where not even the first thread could be started, has thrown. -/
theorem thrown_of_unstarted (some_worker : 0 < workers) {exception : Exception}
    (failed : env.startThread 0 = .error exception) {state : CrunchState P R workers}
    (reachable : (crunch env desc workers entries).Reachable state) (isOver : state.Over) :
    state.terminated = false ∧ state.main = .thrown exception := by
  have inv : Inv env desc _ state := Inv.reachable (crunch_eq ▸ reachable)
  have nothing := nothingStarted_of_reachable some_worker failed reachable
  refine ⟨nothing.runs, ?_⟩
  -- The main thread has not come past its first try, or it has thrown there.
  cases nothing.early with
  | inl atFirst =>
    cases isOver with
    | terminated ended => exact absurd (ended.symm.trans nothing.runs) (by decide)
    | returned results returned => exact absurd (atFirst.symm.trans returned) nofun
    | thrown other thrown => exact absurd (atFirst.symm.trans thrown) nofun
  | inr early =>
    obtain ⟨other, thrown⟩ := early
    have built := (inv.thrown other thrown).2
    rw [failed, Except.error.injEq] at built
    exact built ▸ thrown

variable (env desc entries) in
/--
What every crunch comes to in which all threads get their turns again and again.

It returns where nothing throws, the process is ended where something does, and the caller hears of it
only where not even the first thread could be started.
-/
theorem crunch_fair_outcome (some_worker : 0 < workers) (fair : Fair schedule) :
    ∃ turn, ∀ later, turn ≤ later →
      let machine := crunch env desc workers entries
      let state := machine.play schedule machine.start later
      (¬ Failure env desc workers (slpFiles entries) →
        state.main = .returned (dealtResults env desc workers entries)) ∧
      (Failure env desc workers (slpFiles entries) → env.startThread 0 = .ok () →
        state.terminated = true) ∧
      ∀ exception, env.startThread 0 = .error exception → state.main = .thrown exception := by
  -- It is over in any case; the state that was reached tells how.
  obtain ⟨turn, isOver⟩ := crunch_over env desc entries fair
  refine ⟨turn, fun later after => ?_⟩
  have reachable : (crunch env desc workers entries).Reachable _ :=
    leads_play schedule (crunch env desc workers entries).start later
  have overLater := isOver later after
  exact ⟨fun calm => (returned_of_calm reachable overLater calm).2,
    fun failure built => crunch_terminates_of_failure some_worker failure built reachable overLater,
    fun exception failed => (thrown_of_unstarted some_worker failed reachable overLater).2⟩

/-- All threads get their turns one after the other, again and again. -/
def takeTurns (workers turn : Nat) : Agent workers :=
  if inside : turn % (workers + 1) < workers then .worker ⟨turn % (workers + 1), inside⟩ else .main

/-- Taking turns is fair. -/
theorem takeTurns_fair (workers : Nat) : Fair (takeTurns workers) := by
  intro agent turn
  -- In each round of turns every thread has its own place.
  have passed : turn ≤ turn * (workers + 1) := Nat.le_mul_of_pos_right turn (Nat.succ_pos workers)
  cases agent with
  | main =>
    refine ⟨turn * (workers + 1) + workers, by omega, ?_⟩
    rw [takeTurns, Nat.mul_comm, Nat.mul_add_mod, Nat.mod_eq_of_lt (Nat.lt_succ_self workers),
      dif_neg (Nat.lt_irrefl workers)]
  | worker k =>
    refine ⟨turn * (workers + 1) + k, by omega, ?_⟩
    have place : (turn * (workers + 1) + k.val) % (workers + 1) = k.val := by
      rw [Nat.mul_comm, Nat.mul_add_mod, Nat.mod_eq_of_lt (Nat.lt_succ_of_lt k.isLt)]
    simp only [takeTurns, place, dif_pos k.isLt]

/-- Two workers that take turns with the main thread return the replays that could be parsed. -/
theorem fourReplays_fairly : ∃ turn, ∀ later, turn ≤ later →
    let machine := crunch (pathEnvironment (replay 'b').path) pathDesc 2
      [replay 'a', replay 'b', replay 'c', replay 'd']
    (machine.play (takeTurns 2) machine.start later).main =
      .returned [(replay 'a').path, (replay 'c').path, (replay 'd').path] := by
  -- Nothing fails there, so the outcome is the one of calm executions.
  obtain ⟨turn, outcome⟩ := crunch_fair_outcome (pathEnvironment (replay 'b').path) pathDesc
    [replay 'a', replay 'b', replay 'c', replay 'd'] (by decide) (takeTurns_fair 2)
  refine ⟨turn, fun later after => ?_⟩
  exact (outcome later after).1 (pathEnvironment_calm _ _ _)

section Waiting

/-- Only the main thread gets turns. -/
def mainOnly (_ : Nat) : Agent workers := .main

/-- Where the main thread stands as long as it waits for workers that do nothing. -/
structure MainWaits (state : CrunchState P R workers) : Prop where
  runs : state.terminated = false
  unset : ∀ k, (state.worker k).promise = none
  atLoop : (∃ i, state.main = .spawn i) ∨ state.main = .check 0 ∨ ∃ i, state.main = .log i

/-- The main thread goes on waiting: no future it looks at is ever ready. -/
theorem MainWaits.step {state next : CrunchState P R workers} (waits : MainWaits state)
    (some_worker : 0 < workers) (built : ∀ i < workers, env.startThread i = .ok ())
    (moved : state.step env desc .main = some next) : MainWaits next := by
  obtain ⟨runs, unset, atLoop⟩ := waits
  cases step_move moved with
  | main move =>
    cases move with
    | starts k atSpawn _ =>
      refine ⟨runs, fun j => ?_, .inl ⟨_, rfl⟩⟩
      by_cases same : j = k
      · subst same
        simpa using unset j
      · simpa [Function.update_of_ne same] using unset j
    | startFails k atSpawn failed =>
      rw [built k k.isLt] at failed
      exact nomatch failed
    | allStarted atSpawn past => exact ⟨runs, unset, .inr (.inl rfl)⟩
    | findsReady k atCheck ready =>
      rw [unset k] at ready
      exact nomatch ready
    | findsRunning k atCheck => exact ⟨runs, unset, .inr (.inr ⟨0, rfl⟩)⟩
    | allReady atCheck past =>
      -- There is a worker to be checked before the check is over.
      rcases atLoop with ⟨i, atSpawn⟩ | atFirst | ⟨i, atLog⟩
      · exact absurd (atSpawn.symm.trans atCheck) nofun
      · rw [atFirst, MainPc.check.injEq] at atCheck
        omega
      · exact absurd (atLog.symm.trans atCheck) nofun
    | logs k atLog => exact ⟨runs, unset, .inr (.inr ⟨_, rfl⟩)⟩
    | allLogged atLog => exact ⟨runs, unset, .inr (.inl rfl)⟩
    | joins k elsewhere | allJoined elsewhere | reads k elsewhere | readFails k elsewhere
      | allRead elsewhere =>
      rcases atLoop with ⟨i, atSpawn⟩ | atCheck | ⟨i, atLog⟩
      · exact absurd (atSpawn.symm.trans elsewhere) nofun
      · exact absurd (atCheck.symm.trans elsewhere) nofun
      · exact absurd (atLog.symm.trans elsewhere) nofun

/-- Without the workers a crunch whose threads all start never ends, so fairness is needed. -/
theorem mainOnly_never_over (some_worker : 0 < workers)
    (built : ∀ i < workers, env.startThread i = .ok ()) (turn : Nat) :
    ¬ ((crunch env desc workers entries).play mainOnly
      (crunch env desc workers entries).start turn).Over := by
  -- Every move of the main thread leaves it waiting.
  have waits : MainWaits ((crunch env desc workers entries).play mainOnly
      (crunch env desc workers entries).start turn) := by
    induction turn with
    | zero => exact ⟨rfl, fun _ => rfl, .inl ⟨0, rfl⟩⟩
    | succ turn ih =>
      cases moved : (crunch env desc workers entries).step ((crunch env desc workers entries).play
          mainOnly (crunch env desc workers entries).start turn) (mainOnly turn) with
      | none => exact (play_succ_of_stuck moved : _ = _) ▸ ih
      | some next =>
        rw [play_succ_of_step moved]
        exact ih.step some_worker built (show CrunchState.step env desc _ .main = some next from moved)
  intro isOver
  -- A main thread that waits has not come to any of the ends.
  cases isOver with
  | terminated ended => exact absurd (ended.symm.trans waits.runs) (by decide)
  | returned results returned =>
    rcases waits.atLoop with ⟨i, atSpawn⟩ | atCheck | ⟨i, atLog⟩
    · exact absurd (atSpawn.symm.trans returned) nofun
    · exact absurd (atCheck.symm.trans returned) nofun
    · exact absurd (atLog.symm.trans returned) nofun
  | thrown exception thrown =>
    rcases waits.atLoop with ⟨i, atSpawn⟩ | atCheck | ⟨i, atLog⟩
    · exact absurd (atSpawn.symm.trans thrown) nofun
    · exact absurd (atCheck.symm.trans thrown) nofun
    · exact absurd (atLog.symm.trans thrown) nofun

/-- Two workers that never get a turn are waited for. -/
theorem fourReplays_waits :
    let machine := crunch (pathEnvironment (replay 'b').path) pathDesc 2
      [replay 'a', replay 'b', replay 'c', replay 'd']
    ¬ (machine.play mainOnly machine.start 1000).Over :=
  mainOnly_never_over (by decide) (fun _ _ => rfl) 1000

end Waiting

end SlippCrunch
