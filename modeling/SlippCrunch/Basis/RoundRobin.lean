import Mathlib.Data.List.FinRange
import Mathlib.Data.List.Induction

/-! Dealing a list to a number of hands in turn, and gathering the hands again. -/

namespace RoundRobin

variable {α β ι : Type*}

/-- The hand dealt the items whose position leaves the given remainder. -/
def hand (hands k : Nat) (items : List α) : List α :=
  (items.zipIdx.filter fun dealt => dealt.2 % hands = k).map Prod.fst

@[simp] theorem hand_nil (hands k : Nat) : hand hands k ([] : List α) = [] := rfl

/-- A hand holds nothing but items that were dealt. -/
theorem mem_of_mem_hand {hands k : Nat} {items : List α} {item : α}
    (member : item ∈ hand hands k items) : item ∈ items := by
  -- A dealt item is one of the numbered ones, with its number left out.
  obtain ⟨dealt, chosen, same⟩ := List.mem_map.mp member
  subst same
  exact List.fst_mem_of_mem_zipIdx (List.mem_filter.mp chosen).1

/-- The next item goes to the hand whose turn it is, and no other hand changes. -/
theorem hand_concat (hands k : Nat) (items : List α) (item : α) :
    hand hands k (items ++ [item]) =
      if k = items.length % hands then hand hands k items ++ [item] else hand hands k items := by
  -- Appending leaves every earlier position as it was.
  by_cases turn : k = items.length % hands
  · simp [hand, List.zipIdx_append, turn]
  · simp [hand, List.zipIdx_append, turn, Ne.symm turn]

/-- Adding an item to one of several lists adds it once to their concatenation. -/
theorem flatMap_concat_perm [DecidableEq ι] {keys : List ι} (distinct : keys.Nodup) {chosen : ι}
    (member : chosen ∈ keys) (lists : ι → List α) (item : α) :
    (keys.flatMap fun k => if k = chosen then lists k ++ [item] else lists k).Perm
      (keys.flatMap lists ++ [item]) := by
  -- The chosen key is met once, and behind it nothing is added any more.
  induction keys with
  | nil => simp at member
  | cons key rest ih =>
    obtain ⟨absent, distinctRest⟩ := List.nodup_cons.mp distinct
    simp only [List.flatMap_cons]
    by_cases here : key = chosen
    · subst here
      have unchanged : (rest.flatMap fun k => if k = key then lists k ++ [item] else lists k) =
          rest.flatMap lists := by
        apply List.flatMap_congr
        intro k inside
        have other : k ≠ key := fun same => absent (same ▸ inside)
        rw [if_neg other]
      rw [if_pos rfl, unchanged, List.append_assoc, List.append_assoc]
      exact List.Perm.append_left _ List.perm_append_comm
    · rw [if_neg here, List.append_assoc]
      have inRest : chosen ∈ rest := by simpa [Ne.symm here] using member
      exact List.Perm.append_left _ (ih distinctRest inRest)

/-- With at least one hand, the hands together hold every item exactly once. -/
theorem hands_perm {hands : Nat} (some_hand : 0 < hands) (items : List α) :
    ((List.finRange hands).flatMap fun k : Fin hands => hand hands k items).Perm items := by
  -- Each item dealt lengthens one hand, whichever it is.
  induction items using List.reverseRecOn with
  | nil => simp
  | append_singleton items item ih =>
    let turn : Fin hands := ⟨items.length % hands, Nat.mod_lt _ some_hand⟩
    have dealt : ((List.finRange hands).flatMap fun k : Fin hands => hand hands k (items ++ [item])) =
        (List.finRange hands).flatMap fun k : Fin hands =>
          if k = turn then hand hands k items ++ [item] else hand hands k items := by
      apply List.flatMap_congr
      intro k _
      simp only [hand_concat, Fin.ext_iff, turn]
    rw [dealt]
    exact (flatMap_concat_perm (List.nodup_finRange hands) (List.mem_finRange turn) _ item).trans
      (ih.append_right [item])

/-- What the hands yield together is what the undealt list yields, in another order. -/
theorem hands_filterMap_perm {hands : Nat} (some_hand : 0 < hands) (items : List α)
    (yield : α → Option β) :
    ((List.finRange hands).flatMap fun k : Fin hands => (hand hands k items).filterMap yield).Perm
      (items.filterMap yield) := by
  -- Selecting commutes with gathering the hands.
  have gathered : ((List.finRange hands).flatMap fun k : Fin hands => (hand hands k items).filterMap yield) =
      ((List.finRange hands).flatMap fun k : Fin hands => hand hands k items).filterMap yield := by
    rw [List.filterMap_flatMap]
  rw [gathered]
  exact (hands_perm some_hand items).filterMap yield

end RoundRobin
