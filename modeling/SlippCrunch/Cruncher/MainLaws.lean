import SlippCrunch.Cruncher.WorkerLaws

/-! What the main thread can do in one step, and what any thread can. -/

namespace SlippCrunch

variable {P R : Type} {workers : Nat} (env : Environment P) (desc : CruncherDesc P R)

namespace CrunchState

/-- The moves of the main thread, with what each of them found. -/
inductive MainMove (state : CrunchState P R workers) : CrunchState P R workers → Prop where
  | starts (k : Fin workers) (atSpawn : state.main = .spawn k.val)
      (built : env.startThread k.val = .ok ()) :
      MainMove state { state with
        worker := Function.update state.worker k { state.worker k with
          fileEntryQueue := state.fileEntryQueues k, pc := .pop }
        futureValid := Function.update state.futureValid k true
        joinable := Function.update state.joinable k true
        main := .spawn (k + 1) }
  | startFails (k : Fin workers) {exception : Exception} (atSpawn : state.main = .spawn k.val)
      (built : env.startThread k.val = .error exception) :
      MainMove state (state.leave (.thrown exception))
  | allStarted {i : Nat} (atSpawn : state.main = .spawn i) (past : workers ≤ i) :
      MainMove state { state with main := .check 0 }
  | findsReady (k : Fin workers) (atCheck : state.main = .check k.val)
      (ready : (state.worker k).promise.isSome = true) :
      MainMove state { state with main := .check (k + 1) }
  | findsRunning (k : Fin workers) (atCheck : state.main = .check k.val) :
      MainMove state { state with main := .log 0 }
  | allReady {i : Nat} (atCheck : state.main = .check i) (past : workers ≤ i) :
      MainMove state { state with main := .join 0 }
  | logs (k : Fin workers) (atLog : state.main = .log k.val) : MainMove state (state.logProgress k)
  | allLogged {i : Nat} (atLog : state.main = .log i) :
      MainMove state { state with main := .check 0 }
  | joins (k : Fin workers) (atJoin : state.main = .join k.val)
      (ended : (state.worker k).pc = .finished) :
      MainMove state { state with
        joinable := Function.update state.joinable k false
        main := .join (k + 1) }
  | allJoined {i : Nat} (atJoin : state.main = .join i) (past : workers ≤ i) :
      MainMove state { state with main := .get 0 [] }
  | reads (k : Fin workers) {results threadFutureResult : List R}
      (atGet : state.main = .get k.val results) (valid : state.futureValid k = true)
      (set : (state.worker k).promise = some threadFutureResult) :
      MainMove state { state with
        futureValid := Function.update state.futureValid k false
        main := .get (k + 1) (results ++ threadFutureResult) }
  | readFails (k : Fin workers) {results : List R} (atGet : state.main = .get k.val results)
      (invalid : state.futureValid k = false) : MainMove state (state.leave (.thrown noState))
  | allRead {i : Nat} {results : List R} (atGet : state.main = .get i results)
      (past : workers ≤ i) : MainMove state (state.leave (.returned results))

variable {env desc} {state next : CrunchState P R workers}

/-- The main thread makes no other moves. -/
theorem mainStep_move (moved : state.mainStep env = some next) : state.MainMove env next := by
  -- Each loop either treats its next thread or goes on to what follows it.
  unfold mainStep at moved
  cases pc : state.main with
  | spawn i =>
    by_cases inside : i < workers
    · simp only [pc, dif_pos inside, Option.some.injEq] at moved
      subst moved
      cases built : env.startThread i with
      | ok done =>
        simp only [spawn, built]
        exact .starts ⟨i, inside⟩ pc built
      | error exception =>
        simp only [spawn, built]
        exact .startFails ⟨i, inside⟩ pc built
    · simp only [pc, dif_neg inside, Option.some.injEq] at moved
      subst moved
      exact .allStarted pc (Nat.le_of_not_lt inside)
  | check i =>
    by_cases inside : i < workers
    · simp only [pc, dif_pos inside, Option.some.injEq] at moved
      subst moved
      unfold checkReady
      by_cases ready : (state.worker ⟨i, inside⟩).promise.isSome = true
      · rw [if_pos ready]
        exact .findsReady ⟨i, inside⟩ pc ready
      · rw [if_neg ready]
        exact .findsRunning ⟨i, inside⟩ pc
    · simp only [pc, dif_neg inside, Option.some.injEq] at moved
      subst moved
      exact .allReady pc (Nat.le_of_not_lt inside)
  | log i =>
    by_cases inside : i < workers
    · simp only [pc, dif_pos inside, Option.some.injEq] at moved
      subst moved
      exact .logs ⟨i, inside⟩ pc
    · simp only [pc, dif_neg inside, Option.some.injEq] at moved
      subst moved
      exact .allLogged pc
  | join i =>
    by_cases inside : i < workers
    · simp only [pc, dif_pos inside, joinThread] at moved
      -- The main thread only goes on when the thread is finished.
      cases ended : (state.worker ⟨i, inside⟩).pc with
      | finished =>
        simp only [ended, Option.some.injEq] at moved
        subst moved
        exact .joins ⟨i, inside⟩ pc ended
      | _ => simp [ended] at moved
    · simp only [pc, dif_neg inside, Option.some.injEq] at moved
      subst moved
      exact .allJoined pc (Nat.le_of_not_lt inside)
  | get i results =>
    by_cases inside : i < workers
    · simp only [pc, dif_pos inside, getFuture] at moved
      cases valid : state.futureValid ⟨i, inside⟩ with
      | false =>
        simp only [valid, Bool.false_eq_true, if_false, Option.some.injEq] at moved
        subst moved
        exact .readFails ⟨i, inside⟩ pc valid
      | true =>
        -- The main thread waits as long as the value is not set.
        cases set : (state.worker ⟨i, inside⟩).promise with
        | none => simp [valid, set] at moved
        | some threadFutureResult =>
          simp only [valid, set, if_true, Option.some.injEq] at moved
          subst moved
          exact .reads ⟨i, inside⟩ pc valid set
    · simp only [pc, dif_neg inside, Option.some.injEq] at moved
      subst moved
      exact .allRead pc (Nat.le_of_not_lt inside)
  | returned results | thrown exception => simp [pc] at moved

variable (env desc) in
/-- The moves of any thread. -/
inductive Move (state : CrunchState P R workers) :
    Agent workers → CrunchState P R workers → Prop where
  | main {next : CrunchState P R workers} (move : state.MainMove env next) : Move state .main next
  | worker (k : Fin workers) {worker : Worker P R}
      (move : (state.worker k).Move env desc (.ok worker)) :
      Move state (.worker k) { state with worker := Function.update state.worker k worker }
  | ends (k : Fin workers) {exception : Exception}
      (move : (state.worker k).Move env desc (.error exception)) :
      Move state (.worker k) { state with terminated := true }

/-- There are no other steps. -/
theorem step_move {agent : Agent workers} (moved : state.step env desc agent = some next) :
    state.Move env desc agent next := by
  unfold step at moved
  by_cases ended : state.terminated = true
  · simp [ended] at moved
  · rw [if_neg ended] at moved
    cases agent with
    | main => exact .main (mainStep_move moved)
    | worker k =>
      simp only [workerStep] at moved
      -- A worker stands still, moves, or lets an exception end the process.
      cases answered : (state.worker k).step env desc with
      | none => simp [answered] at moved
      | some answer =>
        have move := Worker.step_move answered
        cases answer with
        | error exception =>
          simp only [answered, Option.some.injEq] at moved
          subst moved
          exact .ends k move
        | ok worker =>
          simp only [answered, Option.some.injEq] at moved
          subst moved
          exact .worker k move

end CrunchState

end SlippCrunch
