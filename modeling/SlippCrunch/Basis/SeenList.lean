import Mathlib.Data.Finset.Card
import Mathlib.Data.Finset.Dedup
import Mathlib.Data.Finset.Basic

/-! Counting the items a list of seen items does not hold yet. -/

namespace SeenList

variable {α κ : Type*} [DecidableEq κ]

/-- Visit one item: a key not seen before is counted, and from then on seen. -/
def visit (key : α → κ) (seen : List κ × Nat) (item : α) : List κ × Nat :=
  -- New keys are put behind the seen ones.
  if seen.1.contains (key item) then seen else (seen.1 ++ [key item], seen.2 + 1)

/-- The keys of some items that are not among the seen ones. -/
def unseen (key : α → κ) (items : List α) (seen : List κ) : Finset κ :=
  (items.map key).toFinset \ seen.toFinset

@[simp] theorem unseen_nil (key : α → κ) (seen : List κ) : unseen key [] seen = ∅ := by
  simp [unseen]

/-- A key that was seen makes no difference to the unseen ones. -/
theorem unseen_cons_of_mem {key : α → κ} {item : α} {seen : List κ} (known : key item ∈ seen)
    (rest : List α) : unseen key (item :: rest) seen = unseen key rest seen := by
  -- The key would be counted once, but the seen ones are taken off.
  rw [unseen, List.map_cons, List.toFinset_cons,
    Finset.insert_sdiff_of_mem _ (List.mem_toFinset.mpr known)]
  rfl

/-- A new key counts once, whether or not it occurs again. -/
theorem card_unseen_cons_of_not_mem {key : α → κ} {item : α} {seen : List κ}
    (fresh : key item ∉ seen) (rest : List α) :
    (unseen key (item :: rest) seen).card = (unseen key rest (seen ++ [key item])).card + 1 := by
  -- The unseen keys are the new one and those that are still unseen after it.
  have split : unseen key (item :: rest) seen =
      insert (key item) (unseen key rest (seen ++ [key item])) := by
    ext other
    simp only [unseen, List.map_cons, List.toFinset_cons, List.toFinset_append,
      List.toFinset_nil, insert_empty_eq, Finset.mem_sdiff, Finset.mem_insert, Finset.mem_union,
      Finset.mem_singleton, List.mem_toFinset]
    by_cases same : other = key item
    · simp [same, fresh]
    · simp [same]
  rw [split, Finset.card_insert_of_notMem]
  simp [unseen]

/-- Visiting a list counts each key that was not seen before exactly once. -/
theorem foldl_visit (key : α → κ) (items : List α) (seen : List κ) (count : Nat) :
    (items.foldl (visit key) (seen, count)).2 = count + (unseen key items seen).card := by
  -- Counter and list of seen keys stay general, since every visit may change both.
  induction items generalizing seen count with
  | nil => simp
  | cons item rest ih =>
    rw [List.foldl_cons]
    by_cases known : key item ∈ seen
    -- A known key changes neither of them.
    · have kept : visit key (seen, count) item = (seen, count) := by simp [visit, known]
      rw [kept, ih, unseen_cons_of_mem known]
    -- A new key is counted, and will be known from here on.
    · have counted : visit key (seen, count) item = (seen ++ [key item], count + 1) := by
        simp [visit, known]
      rw [counted, ih, card_unseen_cons_of_not_mem known]
      omega

end SeenList
