import Mathlib.Algebra.Order.BigOperators.Group.Finset
import SlippCrunch.Cruncher.Invariant

/-! No state of a crunch is a dead end: some schedule carries it on until the crunch is over. -/

namespace SlippCrunch

variable {P R : Type} {workers : Nat} {env : Environment P} {desc : CruncherDesc P R}
  {queues : Fin workers → List DirectoryEntry}

/-- A bound on the steps a worker still has to take, before it is started as well as after. -/
def Worker.work (queue : List DirectoryEntry) (worker : Worker P R) : Nat :=
  -- Six steps are enough for a file, and three end the thread.
  match worker.pc with
  | .unstarted => 6 * queue.length + 4
  | .pop => 6 * worker.fileEntryQueue.length + 4
  | .load _ => 6 * worker.fileEntryQueue.length + 9
  | .crunch _ => 6 * worker.fileEntryQueue.length + 8
  | .readCount => 6 * worker.fileEntryQueue.length + 7
  | .storeCount _ => 6 * worker.fileEntryQueue.length + 6
  | .setValue => 3
  | .leaving => 2
  | .finished => 0

/-- Every move of a worker leaves it less to do. -/
theorem Worker.Move.work_lt {queue : List DirectoryEntry} {worker next : Worker P R}
    (move : worker.Move env desc (.ok next)) : next.work queue < worker.work queue := by
  -- Each move brings the worker on within a file, or to a shorter queue.
  cases move with
  | exhaust pc queue => simp [work, pc]
  | take pc queue => simp [work, pc, queue]; omega
  | skip pc | parse pc | push pc | readCount pc | storeCount pc | setValue pc | leave pc =>
    simp [work, pc]

/-- A bound on the steps the main thread still has to take when no worker keeps it waiting. -/
def MainPc.rank (workers : Nat) : MainPc R → Nat
  | .spawn i => workers - i + 1 + 4 * (workers + 1)
  | .log i => workers - i + 1 + 3 * (workers + 1)
  | .check i => workers - i + 1 + 2 * (workers + 1)
  | .join i => workers - i + 1 + (workers + 1)
  | .get i _ => workers - i + 1
  | .returned _ | .thrown _ => 0

namespace CrunchState

/-- The crunch is over, whether it returned, threw, or took the process with it. -/
inductive Over (state : CrunchState P R workers) : Prop where
  | terminated (ended : state.terminated = true)
  | returned (results : List R) (returned : state.main = .returned results)
  | thrown (exception : Exception) (thrown : state.main = .thrown exception)

/-- What is left to do in a state. -/
def measure (queues : Fin workers → List DirectoryEntry) (state : CrunchState P R workers) : Nat :=
  (∑ k, (state.worker k).work (queues k)) + state.main.rank workers

/-- Leaving the crunch ends it in one way or another. -/
theorem leave_over (state : CrunchState P R workers) {outcome : MainPc R}
    (leaves : (∃ results, outcome = .returned results) ∨ ∃ exception, outcome = .thrown exception) :
    (state.leave outcome).Over := by
  unfold leave
  split
  -- A joinable thread makes leaving the end of the process.
  · exact .terminated rfl
  · cases leaves with
    | inl returns => exact .returned _ returns.choose_spec
    | inr throws => exact .thrown _ throws.choose_spec

/-- One worker having less to do, all of them together have less to do. -/
theorem work_update_lt {state : CrunchState P R workers} {k : Fin workers} {next : Worker P R}
    (less : next.work (queues k) < (state.worker k).work (queues k)) :
    measure queues { state with worker := Function.update state.worker k next } <
      state.measure queues := by
  -- All other workers have as much to do as before.
  have together : ∑ j, (Function.update state.worker k next j).work (queues j) <
      ∑ j, (state.worker j).work (queues j) := by
    apply Finset.sum_lt_sum
    · intro j _
      by_cases same : j = k
      · subst same
        simpa using less.le
      · simp [Function.update_of_ne same]
    · exact ⟨k, Finset.mem_univ k, by simpa using less⟩
  exact Nat.add_lt_add_right together (state.main.rank workers)

/-- Starting a worker on its queue leaves everyone as much to do as before. -/
theorem work_start {state : CrunchState P R workers} {k : Fin workers}
    (copied : state.fileEntryQueues k = queues k)
    (unstarted : (state.worker k).pc = .unstarted) :
    ∑ j, (Function.update state.worker k { state.worker k with
      fileEntryQueue := state.fileEntryQueues k, pc := .pop } j).work (queues j) =
      ∑ j, (state.worker j).work (queues j) := by
  -- The queue that a worker copies is what was left for it.
  apply Finset.sum_congr rfl
  intro j _
  by_cases same : j = k
  · subst same
    simp [Worker.work, unstarted, copied]
  · simp [Function.update_of_ne same]

/-- A worker that was started but is not finished can take the next step. -/
theorem Inv.worker_progress {state : CrunchState P R workers} (runs : state.terminated = false)
    {k : Fin workers} (started : (state.worker k).pc ≠ .unstarted)
    (unfinished : (state.worker k).pc ≠ .finished) :
    ∃ next, state.step env desc (.worker k) = some next ∧
      (next.Over ∨ next.measure queues < state.measure queues) := by
  -- The step either brings the worker forward or ends the process.
  cases answered : (state.worker k).step env desc with
  | none =>
    cases Worker.step_none answered with
    | inl unstarted => exact absurd unstarted started
    | inr finished => exact absurd finished unfinished
  | some answer =>
    cases answer with
    | error exception =>
      refine ⟨{ state with terminated := true }, ?_, .inl (.terminated rfl)⟩
      simp [CrunchState.step, workerStep, runs, answered]
    | ok worker =>
      refine ⟨{ state with worker := Function.update state.worker k worker }, ?_, .inr ?_⟩
      · simp [CrunchState.step, workerStep, runs, answered]
      · exact work_update_lt (Worker.step_move answered).work_lt

/-- When all workers that were started are finished, the main thread can take the next step. -/
theorem Inv.main_progress {state : CrunchState P R workers} (inv : state.Inv env desc queues)
    (runs : ¬ state.Over)
    (finished : ∀ k, (state.worker k).pc ≠ .unstarted → (state.worker k).pc = .finished) :
    ∃ next, state.step env desc .main = some next ∧
      (next.Over ∨ next.measure queues < state.measure queues) := by
  -- No check of a future fails any more, so every loop of the main thread goes forward.
  have going : state.terminated = false := by
    cases ended : state.terminated with
    | false => rfl
    | true => exact absurd (.terminated ended) runs
  have ready : ∀ k : Fin workers, k.val < state.main.started workers →
      (state.worker k).pc = .finished ∧ (state.worker k).promise.isSome = true := by
    intro k early
    have started : (state.worker k).pc ≠ .unstarted := by
      rw [Ne, inv.unstarted k]
      omega
    exact ⟨finished k started, (inv.workersSound k).kept (.inr (finished k started))⟩
  have free : state.step env desc .main = state.mainStep env := by
    simp [CrunchState.step, going]
  rw [free]
  unfold CrunchState.mainStep
  cases pc : state.main with
  | spawn i =>
    by_cases inside : i < workers
    · refine ⟨state.spawn env ⟨i, inside⟩, by simp only [dif_pos inside], ?_⟩
      unfold CrunchState.spawn
      cases built : env.startThread i with
      | error exception => exact .inl (leave_over state (.inr ⟨exception, rfl⟩))
      | ok done =>
        right
        have unstarted : (state.worker ⟨i, inside⟩).pc = .unstarted := by
          rw [inv.unstarted, pc]
          simp [MainPc.started]
        have unchanged := work_start (congrFun inv.queuesKept _) unstarted
        simp only [measure, unchanged, pc, MainPc.rank]
        omega
    · refine ⟨{ state with main := .check 0 }, by simp only [dif_neg inside], .inr ?_⟩
      simp only [measure, pc, MainPc.rank]
      omega
  | check i =>
    by_cases inside : i < workers
    · have set := (ready ⟨i, inside⟩ (by simp [pc, MainPc.started, inside])).2
      refine ⟨{ state with main := .check (i + 1) }, ?_, .inr ?_⟩
      · simp only [dif_pos inside, checkReady, if_pos set]
      · simp only [measure, pc, MainPc.rank]
        omega
    · refine ⟨{ state with main := .join 0 }, by simp only [dif_neg inside], .inr ?_⟩
      simp only [measure, pc, MainPc.rank]
      omega
  | log i =>
    by_cases inside : i < workers
    · refine ⟨state.logProgress ⟨i, inside⟩, by simp only [dif_pos inside], .inr ?_⟩
      simp only [logProgress, measure, pc, MainPc.rank]
      omega
    · refine ⟨{ state with main := .check 0 }, by simp only [dif_neg inside], .inr ?_⟩
      simp only [measure, pc, MainPc.rank]
      omega
  | join i =>
    by_cases inside : i < workers
    · have ended := (ready ⟨i, inside⟩ (by simp [pc, MainPc.started, inside])).1
      simp only [dif_pos inside, CrunchState.joinThread, ended]
      refine ⟨_, rfl, .inr ?_⟩
      simp only [measure, pc, MainPc.rank]
      omega
    · refine ⟨{ state with main := .get 0 [] }, by simp only [dif_neg inside], .inr ?_⟩
      simp only [measure, pc, MainPc.rank]
      omega
  | get i results =>
    by_cases inside : i < workers
    · have valid : state.futureValid ⟨i, inside⟩ = true := inv.valid_of_get (k := ⟨i, inside⟩) pc
      have set := (ready ⟨i, inside⟩ (by simp [pc, MainPc.started, inside])).2
      obtain ⟨threadFutureResult, promised⟩ := Option.isSome_iff_exists.mp set
      simp only [dif_pos inside, CrunchState.getFuture, if_pos valid, promised]
      refine ⟨_, rfl, .inr ?_⟩
      simp only [measure, pc, MainPc.rank]
      omega
    · exact ⟨state.leave (.returned results), by simp only [dif_neg inside],
        .inl (leave_over state (.inl ⟨results, rfl⟩))⟩
  | returned results => exact absurd (.returned results pc) runs
  | thrown exception => exact absurd (.thrown exception pc) runs

/-- Every state of the invariant leads to one in which the crunch is over. -/
theorem Inv.leads_over {state : CrunchState P R workers} (inv : state.Inv env desc queues) :
    ∃ later, (crunchMachine env desc queues).Leads state later ∧ later.Over := by
  -- A worker goes on if one is running, and the main thread otherwise.
  have kept : ∀ now agent next, Inv env desc queues now →
      (crunchMachine env desc queues).step now agent = some next → Inv env desc queues next :=
    fun _ _ _ inv moved => inv.step moved
  refine StepMachine.leads_of_measure (measure queues) kept ?_ inv
  intro now inv runs
  have going : now.terminated = false := by
    cases ended : now.terminated with
    | false => rfl
    | true => exact absurd (.terminated ended) runs
  by_cases working : ∃ k, (now.worker k).pc ≠ .unstarted ∧ (now.worker k).pc ≠ .finished
  · obtain ⟨k, started, unfinished⟩ := working
    exact ⟨.worker k, Inv.worker_progress going started unfinished⟩
  · have finished : ∀ k, (now.worker k).pc ≠ .unstarted → (now.worker k).pc = .finished := by
      intro k started
      by_contra unfinished
      exact working ⟨k, started, unfinished⟩
    exact ⟨.main, inv.main_progress runs finished⟩

end CrunchState

end SlippCrunch
