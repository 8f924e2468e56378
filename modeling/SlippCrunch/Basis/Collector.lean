import Mathlib.Data.List.Basic
import Mathlib.Logic.Function.Basic

/-! Loops that collect items in a small buffer and write it out whenever it is full. -/

/-- What becomes of a buffer that is full, and of one that is not when the items end. -/
structure Collector (Item Result : Type*) where
  /-- The number of items the buffer holds. -/
  size : Nat
  /-- What a full buffer is written as. -/
  emit : (Nat → Item) → List Result
  /-- What the buffer holds after it was written. -/
  leave : (Nat → Item) → Nat → Item
  /-- What so many items are written as when no more follow. -/
  finish : Nat → (Nat → Item) → List Result

namespace Collector

variable {Item Result : Type*}

/-- The results so far, and the buffer with the number of items collected in it. -/
structure State (Item Result : Type*) where
  result : List Result
  count : Nat
  buffer : Nat → Item

variable (collector : Collector Item Result)

/-- Collect one item. -/
def step (state : State Item Result) (item : Item) : State Item Result :=
  let buffer := Function.update state.buffer state.count item
  if state.count + 1 = collector.size then
    ⟨state.result ++ collector.emit buffer, 0, collector.leave buffer⟩
  else ⟨state.result, state.count + 1, buffer⟩

/-- Write what is left in the buffer. -/
def close (state : State Item Result) : List Result :=
  if state.count = 0 then state.result
  else state.result ++ collector.finish state.count state.buffer

/-- Collect all items, in a buffer that holds anything at first. -/
def run (buffer : Nat → Item) (items : List Item) : List Result :=
  collector.close (items.foldl collector.step ⟨[], 0, buffer⟩)

/-- Only the items that were collected are written. -/
structure Local : Prop where
  positive : 0 < collector.size
  emit_congr : ∀ {first second : Nat → Item}, (∀ i < collector.size, first i = second i) →
    collector.emit first = collector.emit second
  finish_congr : ∀ {count : Nat} {first second : Nat → Item}, count < collector.size →
    (∀ i < count, first i = second i) →
    collector.finish count first = collector.finish count second

/-- The buffer begins with the given items. -/
def Holds (contents : Nat → Item) (items : List Item) : Prop :=
  ∀ i (inside : i < items.length), contents i = items[i]

/-- A list holds itself, whatever stands behind it. -/
theorem holds_getD (items : List Item) (default : Item) :
    Holds (fun i => items.getD i default) items := by
  -- Inside of the list the value behind it is not asked for.
  intro i inside
  show items.getD i default = items[i]
  rw [List.getD_eq_getElem?_getD, List.getElem?_eq_getElem inside, Option.getD_some]

/-- A buffer that is not filled only grows by the items. -/
theorem foldl_few (items before : List Item) (state : State Item Result)
    (few : before.length + items.length < collector.size) (counted : state.count = before.length)
    (holds : Holds state.buffer before) :
    ∃ buffer, items.foldl collector.step state =
      ⟨state.result, (before ++ items).length, buffer⟩ ∧ Holds buffer (before ++ items) := by
  -- What was collected before grows with each step, and the result stays as it is.
  induction items generalizing before state with
  | nil =>
    obtain ⟨result, count, buffer⟩ := state
    subst counted
    exact ⟨buffer, by simp, by simpa using holds⟩
  | cons item items ih =>
    simp only [List.length_cons] at few
    have unfilled : ¬ state.count + 1 = collector.size := by omega
    have grown : Holds (Function.update state.buffer state.count item) (before ++ [item]) := by
      intro i inside
      rw [List.getElem_append]
      split
      · -- The new item is written behind those that are there.
        rename_i earlier
        rw [Function.update_of_ne (by omega), holds i earlier]
      · rename_i last
        simp only [List.length_append, List.length_singleton] at inside
        have here : i = state.count := by omega
        subst here
        simp
    obtain ⟨buffer, folded, holds'⟩ := ih (before ++ [item])
      ⟨state.result, state.count + 1, Function.update state.buffer state.count item⟩
      (by simpa using by omega) (by simp [counted]) grown
    refine ⟨buffer, ?_, by simpa using holds'⟩
    rw [List.foldl_cons, step, if_neg unfilled, folded]
    simp

/-- Results that are there already stay in front. -/
theorem foldl_result (front : List Result) (items : List Item) (state : State Item Result) :
    items.foldl collector.step { state with result := front ++ state.result } =
      { items.foldl collector.step state with
        result := front ++ (items.foldl collector.step state).result } := by
  induction items generalizing state with
  | nil => rfl
  | cons item items ih =>
    rw [List.foldl_cons, List.foldl_cons, ← ih]
    congr 1
    -- A step only adds to the end of the results.
    simp only [step]
    split <;> simp

/-- No items are written as nothing. -/
theorem run_nil (buffer : Nat → Item) : collector.run buffer [] = [] := by
  rw [run, List.foldl_nil, close, if_pos rfl]

namespace Local

variable {collector} (isLocal : collector.Local)
include isLocal

/-- Items that do not fill the buffer are written at the end. -/
theorem run_few {items : List Item} (few : items.length < collector.size) (some : items ≠ [])
    {contents : Nat → Item} (holds : Holds contents items) (buffer : Nat → Item) :
    collector.run buffer items = collector.finish items.length contents := by
  obtain ⟨filled, folded, holds'⟩ := collector.foldl_few items [] ⟨[], 0, buffer⟩
    (by simpa using few) rfl (fun i inside => absurd inside (by simp))
  -- There is something left to write, and it is what the buffer begins with.
  have nonzero : ¬ items.length = 0 := fun zero => some (List.length_eq_zero_iff.mp zero)
  rw [run, folded, close, if_neg (by simpa using nonzero), List.nil_append, List.nil_append]
  apply isLocal.finish_congr few
  intro i inside
  rw [holds i inside]
  simpa using holds' i (by simpa using inside)

/-- A full buffer is written, and the loop starts again behind it. -/
theorem run_full {block : List Item} (full : block.length = collector.size)
    {contents : Nat → Item} (holds : Holds contents block) (buffer : Nat → Item) :
    ∃ left, ∀ rest, collector.run buffer (block ++ rest) =
      collector.emit contents ++ collector.run left rest := by
  -- All but the last item of the block are collected before the last one fills the buffer.
  have nonempty : block ≠ [] := by
    have := isLocal.positive
    rintro rfl
    exact absurd full (by simp only [List.length_nil]; omega)
  obtain ⟨first, last, rfl⟩ : ∃ first last, block = first ++ [last] :=
    ⟨_, _, (List.dropLast_append_getLast nonempty).symm⟩
  rw [List.length_append, List.length_singleton] at full
  obtain ⟨filled, folded, holds'⟩ := collector.foldl_few first [] ⟨[], 0, buffer⟩
    (by simp only [List.length_nil]; omega) rfl
    (fun i inside => absurd inside (by simp))
  -- The full buffer has the items of the block, whatever it held before.
  have written : collector.emit (Function.update filled first.length last) =
      collector.emit contents := by
    apply isLocal.emit_congr
    intro i inside
    rw [holds i (by simpa using by omega), List.getElem_append]
    split
    · rename_i earlier
      rw [Function.update_of_ne (by omega), holds' i (by simpa using earlier)]
      simp
    · have here : i = first.length := by omega
      subst here
      simp
  refine ⟨collector.leave (Function.update filled first.length last), fun rest => ?_⟩
  have filling : (first ++ [last]).foldl collector.step ⟨[], 0, buffer⟩ =
      ⟨collector.emit contents ++ [], 0,
        collector.leave (Function.update filled first.length last)⟩ := by
    rw [List.foldl_append, folded, List.foldl_cons, List.foldl_nil, step]
    simp only [List.nil_append, if_pos full, written, List.append_nil]
  rw [run, List.foldl_append, filling]
  have front := collector.foldl_result (collector.emit contents) rest
    ⟨[], 0, collector.leave (Function.update filled first.length last)⟩
  rw [front, run, close, close]
  split
  · rfl
  · exact List.append_assoc ..

/-- What the buffer holds at first is never written. -/
theorem run_congr (items : List Item) (first second : Nat → Item) :
    collector.run first items = collector.run second items := by
  -- Each full buffer is written alike, which leaves fewer items for the loop to go on with.
  generalize count : items.length = length
  induction length using Nat.strongRecOn generalizing items first second with
  | ind length ih =>
    subst count
    by_cases few : items.length < collector.size
    · by_cases none : items = []
      · rw [none, run_nil, run_nil]
      · cases items with
        | nil => exact absurd rfl none
        | cons item items =>
          have holds := holds_getD (item :: items) item
          rw [isLocal.run_few few none holds, isLocal.run_few few none holds]
    · have full : (items.take collector.size).length = collector.size := by
        rw [List.length_take]
        omega
      have fewer : (items.drop collector.size).length < items.length := by
        have := isLocal.positive
        rw [List.length_drop]
        omega
      have holds := holds_getD (items.take collector.size) (first 0)
      obtain ⟨left, runs⟩ := isLocal.run_full full holds first
      obtain ⟨left', runs'⟩ := isLocal.run_full full holds second
      rw [← List.take_append_drop collector.size items, runs, runs', ih _ fewer _ left left' rfl]

/-- Results that grow with each buffer by what its items count for have the size of all items. -/
theorem length_run (size : Nat → Nat) (none : size 0 = 0)
    (full : ∀ contents count,
      (collector.emit contents).length + size count = size (collector.size + count))
    (few : ∀ contents count, 0 < count → count < collector.size →
      (collector.finish count contents).length = size count)
    (items : List Item) (buffer : Nat → Item) :
    (collector.run buffer items).length = size items.length := by
  -- Each full buffer leaves fewer items for the loop to go on with.
  generalize isCount : items.length = count
  induction count using Nat.strongRecOn generalizing items buffer with
  | ind count ih =>
    subst isCount
    cases items with
    | nil => rw [run_nil, List.length_nil, List.length_nil, none]
    | cons item items =>
      by_cases unfilled : (item :: items).length < collector.size
      · have holds := holds_getD (item :: items) item
        rw [isLocal.run_few unfilled (List.cons_ne_nil _ _) holds]
        exact few _ _ (Nat.succ_pos _) unfilled
      · have block : ((item :: items).take collector.size).length = collector.size := by
          rw [List.length_take]
          omega
        have fewer : ((item :: items).drop collector.size).length < (item :: items).length := by
          have := isLocal.positive
          rw [List.length_drop]
          omega
        have holds := holds_getD ((item :: items).take collector.size) item
        obtain ⟨left, runs⟩ := isLocal.run_full block holds buffer
        rw [← List.take_append_drop collector.size (item :: items), runs, List.length_append,
          ih _ fewer _ left rfl, full, List.length_append, block]

/-- A full buffer is written, and the rest is written as it would be without it. -/
theorem run_block (block : List Item) (full : block.length = collector.size)
    {contents : Nat → Item} (holds : Holds contents block) (rest : List Item)
    (buffer other : Nat → Item) :
    collector.run buffer (block ++ rest) = collector.emit contents ++ collector.run other rest := by
  -- Once it was written out, what is left in the buffer does not matter.
  obtain ⟨left, runs⟩ := isLocal.run_full full holds buffer
  rw [runs, isLocal.run_congr rest left other]

end Local

end Collector
