import Mathlib.Logic.Function.Basic

/-! Machines whose next state is fixed by the agent that moves, and the runs of their schedules. -/

/-- A start state, and the state an agent leads to when it is able to move. -/
structure StepMachine (State Agent : Type*) where
  /-- The state every run begins in. -/
  start : State
  /-- The move of one agent, absent when that agent cannot move. -/
  step : State → Agent → Option State

namespace StepMachine

variable {State Agent : Type*} (machine : StepMachine State Agent)

/-- The state left by letting the listed agents move one after the other. -/
def run (state : State) : List Agent → Option State
  -- A schedule naming an agent that cannot move has no run.
  | [] => some state
  | agent :: schedule => (machine.step state agent).bind fun next => run next schedule

/-- What is observed of the moves along a schedule, in their order. -/
def trace {Observed : Type*} (observe : State → Agent → Option Observed) (state : State) :
    List Agent → List Observed
  | [] => []
  | agent :: schedule =>
    match machine.step state agent with
    | none => []
    -- A move is observed in the state it is made in.
    | some next => (observe state agent).toList ++ trace observe next schedule

/-- A later state reached from an earlier one by some schedule. -/
def Leads (earlier later : State) : Prop :=
  ∃ schedule, machine.run earlier schedule = some later

/-- The states of all runs from the start state. -/
def Reachable (state : State) : Prop := machine.Leads machine.start state

variable {machine}

@[simp] theorem run_nil (state : State) : machine.run state [] = some state := rfl

@[simp] theorem run_cons (state : State) (agent : Agent) (schedule : List Agent) :
    machine.run state (agent :: schedule) =
      (machine.step state agent).bind fun next => machine.run next schedule := rfl

/-- Two schedules run one after the other are the run of their concatenation. -/
theorem run_append (state : State) (first second : List Agent) :
    machine.run state (first ++ second) =
      (machine.run state first).bind fun next => machine.run next second := by
  -- The first schedule is consumed agent by agent, and a stuck agent stops both sides.
  induction first generalizing state with
  | nil => rfl
  | cons agent schedule ih =>
    simp only [List.cons_append, run_cons]
    cases machine.step state agent with
    | none => rfl
    | some next => simpa using ih next

/-- Every state leads to itself. -/
theorem Leads.refl (state : State) : machine.Leads state state := ⟨[], rfl⟩

/-- One move of one agent. -/
theorem Leads.single {state next : State} {agent : Agent}
    (moved : machine.step state agent = some next) : machine.Leads state next :=
  ⟨[agent], by simp [moved]⟩

/-- Runs compose. -/
theorem Leads.trans {first second third : State} (early : machine.Leads first second)
    (late : machine.Leads second third) : machine.Leads first third := by
  -- The composed schedule is the concatenation of both.
  obtain ⟨before, ran⟩ := early
  obtain ⟨after, continued⟩ := late
  exact ⟨before ++ after, by simp [run_append, ran, continued]⟩

/-- A property kept by every move holds at the end of every run that begins with it. -/
theorem Leads.invariant {Holds : State → Prop} {earlier later : State}
    (leads : machine.Leads earlier later) (initially : Holds earlier)
    (kept : ∀ state agent next, Holds state → machine.step state agent = some next →
      Holds next) : Holds later := by
  -- The schedule is followed agent by agent, carrying the property along.
  obtain ⟨schedule, ran⟩ := leads
  induction schedule generalizing earlier with
  | nil =>
    cases ran
    exact initially
  | cons agent schedule ih =>
    rw [run_cons] at ran
    cases moved : machine.step earlier agent with
    | none => simp [moved] at ran
    | some next => exact ih (kept _ _ _ initially moved) (by simpa [moved] using ran)

/-- A property of state and observations that every move keeps holds at the end of every run. -/
theorem trace_invariant {Observed : Type*} {observe : State → Agent → Option Observed}
    {Holds : List Observed → State → Prop} {earlier later : State} {schedule : List Agent}
    {seen : List Observed} (ran : machine.run earlier schedule = some later)
    (initially : Holds seen earlier)
    (kept : ∀ seen state agent next, Holds seen state → machine.step state agent = some next →
      Holds (seen ++ (observe state agent).toList) next) :
    Holds (seen ++ machine.trace observe earlier schedule) later := by
  -- Each move appends what is observed of it to what was seen before.
  induction schedule generalizing earlier seen with
  | nil =>
    cases ran
    simpa [trace] using initially
  | cons agent schedule ih =>
    rw [run_cons] at ran
    cases moved : machine.step earlier agent with
    | none => simp [moved] at ran
    | some next =>
      have continued := ih (by simpa [moved] using ran) (kept _ _ _ _ initially moved)
      simpa [trace, moved, List.append_assoc] using continued

/-- An invariant of the machine holds in every reachable state. -/
theorem Reachable.invariant {Holds : State → Prop} {state : State}
    (reachable : machine.Reachable state) (initially : Holds machine.start)
    (kept : ∀ state agent next, Holds state → machine.step state agent = some next →
      Holds next) : Holds state :=
  Leads.invariant reachable initially kept

/-- A goal that some move always brings nearer is reached from every state of an invariant. -/
theorem leads_of_measure {Holds Goal : State → Prop} (measure : State → Nat)
    (kept : ∀ state agent next, Holds state → machine.step state agent = some next → Holds next)
    (nearer : ∀ state, Holds state → ¬ Goal state → ∃ agent next,
      machine.step state agent = some next ∧ (Goal next ∨ measure next < measure state))
    {state : State} (holds : Holds state) : ∃ later, machine.Leads state later ∧ Goal later := by
  -- The moves are chained as long as the measure goes down.
  generalize bound : measure state = size
  induction size using Nat.strongRecOn generalizing state with
  | ind size ih =>
    by_cases reached : Goal state
    · exact ⟨state, .refl state, reached⟩
    · obtain ⟨agent, next, moved, progress⟩ := nearer state holds reached
      cases progress with
      | inl reachedNext => exact ⟨next, .single moved, reachedNext⟩
      | inr less =>
        obtain ⟨later, leads, goal⟩ := ih (measure next) (bound ▸ less) (kept _ _ _ holds moved) rfl
        exact ⟨later, (Leads.single moved).trans leads, goal⟩

/-- The start state is reachable. -/
theorem Reachable.start : machine.Reachable machine.start := Leads.refl _

/-- What a reachable state leads to is reachable. -/
theorem Reachable.leads {state later : State} (reachable : machine.Reachable state)
    (leads : machine.Leads state later) : machine.Reachable later :=
  Leads.trans reachable leads

end StepMachine
