import Mathlib.Order.WellFounded
import SlippCrunch.Basis.StepMachine

/-! Endless schedules in which every agent gets its turn again and again, and what they reach. -/

namespace StepMachine

variable {State Agent : Type*} (machine : StepMachine State Agent)

/-- The state after so many turns of an endless schedule, an agent that cannot move losing its turn. -/
def play (schedule : Nat → Agent) (state : State) : Nat → State
  | 0 => state
  | turn + 1 =>
    let before := play schedule state turn
    (machine.step before (schedule turn)).getD before

/-- Every agent gets its turn again and again. -/
def Fair (schedule : Nat → Agent) : Prop := ∀ agent turn, ∃ later, turn ≤ later ∧ schedule later = agent

variable {machine} {schedule : Nat → Agent} {state next : State} {turn : Nat}

/-- A turn of an agent that can move is its move. -/
theorem play_succ_of_step
    (moved : machine.step (machine.play schedule state turn) (schedule turn) = some next) :
    machine.play schedule state (turn + 1) = next := by
  rw [play, moved, Option.getD_some]

/-- A turn of an agent that cannot move is lost. -/
theorem play_succ_of_stuck
    (stuck : machine.step (machine.play schedule state turn) (schedule turn) = none) :
    machine.play schedule state (turn + 1) = machine.play schedule state turn := by
  rw [play, stuck, Option.getD_none]

/-- What an endless schedule reaches is reached by one of its parts. -/
theorem leads_play (schedule : Nat → Agent) (state : State) (turn : Nat) :
    machine.Leads state (machine.play schedule state turn) := by
  induction turn with
  | zero => exact .refl state
  | succ turn ih =>
    cases moved : machine.step (machine.play schedule state turn) (schedule turn) with
    -- A lost turn adds no move.
    | none =>
      rw [play_succ_of_stuck moved]
      exact ih
    | some next =>
      rw [play_succ_of_step moved]
      exact ih.trans (.single moved)

/-- What every move keeps holds from some turn on once it holds at that turn. -/
theorem play_stable {Holds : State → Prop}
    (kept : ∀ state agent next, Holds state → machine.step state agent = some next → Holds next)
    (holds : Holds (machine.play schedule state turn)) {later : Nat} (after : turn ≤ later) :
    Holds (machine.play schedule state later) := by
  induction later, after using Nat.le_induction with
  | base => exact holds
  | succ later _ ih =>
    -- The turn is a move, which keeps it, or it is lost.
    cases moved : machine.step (machine.play schedule state later) (schedule later) with
    | none =>
      rw [play_succ_of_stuck moved]
      exact ih
    | some next =>
      rw [play_succ_of_step moved]
      exact kept _ _ _ ih moved

/--
A rank that no move raises and that the agents who help lower.

An agent who helps can move, and goes on helping until the rank is lower.
-/
structure Ranking {Rank : Type*} [Preorder Rank] (machine : StepMachine State Agent)
    (Holds Goal : State → Prop) (rank : State → Rank) (Helps : State → Agent → Prop) : Prop where
  kept : ∀ {state agent next}, Holds state → machine.step state agent = some next → Holds next
  helper : ∀ {state}, Holds state → ¬ Goal state → ∃ agent, Helps state agent
  forward : ∀ {state agent}, Holds state → ¬ Goal state → Helps state agent →
    ∃ next, machine.step state agent = some next ∧ (Goal next ∨ rank next < rank state)
  steady : ∀ {state agent next}, Holds state → ¬ Goal state → machine.step state agent = some next →
    Goal next ∨ rank next < rank state ∨
      rank next = rank state ∧ ∀ helper, Helps state helper → Helps next helper

variable {Rank : Type*} [Preorder Rank] {Holds Goal : State → Prop} {rank : State → Rank}
  {Helps : State → Agent → Prop}

/-- An agent who helps and gets its turn lowers the rank, unless the goal is reached before. -/
theorem Ranking.advance (ranking : Ranking machine Holds Goal rank Helps) {helper : Agent}
    (wait : Nat) {turn : Nat} (isTurn : schedule (turn + wait) = helper)
    (holds : Holds (machine.play schedule state turn))
    (helps : Helps (machine.play schedule state turn) helper) :
    ∃ later, turn ≤ later ∧ (Goal (machine.play schedule state later) ∨
      rank (machine.play schedule state later) < rank (machine.play schedule state turn)) := by
  -- The induction is on how long the agent still has to wait for its turn.
  induction wait generalizing turn with
  | zero =>
    by_cases reached : Goal (machine.play schedule state turn)
    · exact ⟨turn, Nat.le_refl turn, .inl reached⟩
    · obtain ⟨next, moved, progress⟩ := ranking.forward holds reached helps
      rw [← isTurn] at moved
      exact ⟨turn + 1, Nat.le_succ turn, play_succ_of_step moved ▸ progress⟩
  | succ wait ih =>
    by_cases reached : Goal (machine.play schedule state turn)
    · exact ⟨turn, Nat.le_refl turn, .inl reached⟩
    have isTurnLater : schedule (turn + 1 + wait) = helper := by
      rw [← isTurn]
      congr 1
      omega
    cases moved : machine.step (machine.play schedule state turn) (schedule turn) with
    | none =>
      have same := play_succ_of_stuck moved
      obtain ⟨later, after, progress⟩ := ih isTurnLater (same ▸ holds) (same ▸ helps)
      exact ⟨later, by omega, same ▸ progress⟩
    | some next =>
      have isNext := play_succ_of_step moved
      -- A move of another agent may be progress itself; otherwise the agent still helps.
      rcases ranking.steady holds reached moved with goal | lower | ⟨same, stillHelps⟩
      · exact ⟨turn + 1, Nat.le_succ turn, .inl (isNext ▸ goal)⟩
      · exact ⟨turn + 1, Nat.le_succ turn, .inr (isNext ▸ lower)⟩
      · obtain ⟨later, after, progress⟩ := ih isTurnLater (isNext ▸ ranking.kept holds moved)
          (isNext ▸ stillHelps helper helps)
        refine ⟨later, by omega, ?_⟩
        rwa [isNext, same] at progress

/-- Where helping agents lower a rank, every fair schedule reaches the goal. -/
theorem Ranking.reaches [WellFoundedLT Rank] (ranking : Ranking machine Holds Goal rank Helps)
    (fair : Fair schedule) (turn : Nat) (holds : Holds (machine.play schedule state turn)) :
    ∃ later, turn ≤ later ∧ Goal (machine.play schedule state later) := by
  generalize isRank : rank (machine.play schedule state turn) = current
  -- The rank cannot fall forever, so the induction is on it, at whatever turn it was reached.
  induction current using WellFoundedLT.induction generalizing turn with
  | ind current ih =>
    by_cases reached : Goal (machine.play schedule state turn)
    · exact ⟨turn, Nat.le_refl turn, reached⟩
    obtain ⟨helper, helps⟩ := ranking.helper holds reached
    -- By fairness the agent who helps gets its turn after some wait.
    obtain ⟨turnOfHelper, after, isTurn⟩ := fair helper turn
    obtain ⟨wait, rfl⟩ := Nat.exists_eq_add_of_le after
    obtain ⟨later, atLeast, progress⟩ := ranking.advance wait isTurn holds helps
    rcases progress with goal | lower
    · exact ⟨later, atLeast, goal⟩
    · have holdsLater := play_stable (fun _ _ _ before moved => ranking.kept before moved) holds atLeast
      obtain ⟨last, afterLater, goal⟩ := ih _ (isRank ▸ lower) later holdsLater rfl
      exact ⟨last, by omega, goal⟩

end StepMachine
