import Mathlib.Data.Set.Finite.Basic
import SlippCrunch.Basis.RoundRobin

/-! Where an item that was dealt in turn stands once the hands are gathered one behind the other. -/

namespace RoundRobin

variable {α β : Type*}

/-- A hand whose items are every so many of those dealt ends where the items do. -/
theorem length_le_of_law {hands k : Nat} {items dealt : List α}
    (law : ∀ i, dealt[i]? = items[i * hands + k]?) (i : Nat) :
    dealt.length ≤ i ↔ items.length ≤ i * hands + k := by
  -- A list has no item at a place exactly if it ends there or before.
  rw [← List.getElem?_eq_none_iff, ← List.getElem?_eq_none_iff, law i]

/-- A hand whose turn it is was reached once in each full round, and not in the round now going on. -/
theorem length_of_turn {hands k : Nat} {items dealt : List α}
    (law : ∀ i, dealt[i]? = items[i * hands + k]?) (turn : k = items.length % hands)
    (some_hand : 0 < hands) : dealt.length = items.length / hands := by
  -- The hand whose turn is next was dealt to in every full round, and not since.
  have whole := Nat.div_add_mod' items.length hands
  apply Nat.le_antisymm
  · rw [length_le_of_law law]
    omega
  · -- A hand with fewer items would end in front of one dealt to it.
    by_contra fewer
    have short := (length_le_of_law law _).mp (Nat.le_refl dealt.length)
    have rows := Nat.mul_le_mul_right hands (Nat.lt_of_not_le fewer)
    rw [Nat.succ_mul] at rows
    omega

/-- The items of a hand are every so many of those dealt. -/
theorem getElem?_hand {hands k : Nat} (inside : k < hands) (items : List α) :
    ∀ i, (hand hands k items)[i]? = items[i * hands + k]? := by
  -- The item dealt last is the next one of the hand whose turn it is.
  induction items using List.reverseRecOn with
  | nil => simp
  | append_singleton items item ih =>
    intro i
    rw [hand_concat]
    by_cases turn : k = items.length % hands
    · have whole : items.length / hands * hands + k = items.length := by
        rw [turn]
        exact Nat.div_add_mod' items.length hands
      have reached := length_of_turn ih turn (by omega)
      rw [if_pos turn]
      rcases Nat.lt_or_ge i (items.length / hands) with early | late
      · have rows := Nat.mul_le_mul_right hands (Nat.succ_le_of_lt early)
        rw [Nat.succ_mul] at rows
        rw [List.getElem?_append_left (by omega), List.getElem?_append_left (by omega), ih i]
      · -- Behind all earlier items, both sides look at the last one only.
        obtain ⟨beyond, rfl⟩ := Nat.exists_eq_add_of_le late
        have rows := Nat.add_mul (items.length / hands) beyond hands
        have shifted : (items.length / hands + beyond) * hands + k - items.length =
            beyond * hands := by omega
        rw [List.getElem?_append_right (by omega), List.getElem?_append_right (by omega), reached,
          shifted, Nat.add_sub_cancel_left]
        cases beyond with
        | zero => simp
        | succ beyond =>
          have outside : 1 ≤ (beyond + 1) * hands := Nat.mul_pos (by omega) (by omega)
          rw [List.getElem?_eq_none (by simp), List.getElem?_eq_none (by simpa using outside)]
    · -- No item of another hand stands at one of this hand's positions.
      rw [if_neg turn, ih i]
      rcases Nat.lt_trichotomy (i * hands + k) items.length with early | last | late
      · rw [List.getElem?_append_left early]
      · exfalso
        apply turn
        rw [← last, Nat.mul_add_mod', Nat.mod_eq_of_lt inside]
      · rw [List.getElem?_eq_none (by omega), List.getElem?_eq_none (by simp; omega)]

/-- A hand holds one item for each full round, and one more if the last round reaches it. -/
theorem length_hand {hands k : Nat} (inside : k < hands) (items : List α) :
    (hand hands k items).length =
      items.length / hands + if k < items.length % hands then 1 else 0 := by
  -- The law of the seats tells up to which round a hand was dealt to.
  have ends := length_le_of_law (getElem?_hand inside items)
  have whole := Nat.div_add_mod' items.length hands
  have rest_small := Nat.mod_lt items.length (Nat.lt_of_le_of_lt (Nat.zero_le k) inside)
  have next := Nat.add_one_mul (items.length / hands) hands
  apply Nat.le_antisymm
  · -- Behind that many rounds nothing is left for the hand.
    rw [ends]
    split
    · omega
    · rw [Nat.add_zero]
      omega
  · -- A shorter hand would end in front of an item dealt to it.
    by_contra fewer
    have short := (ends _).mp (Nat.le_refl (hand hands k items).length)
    split at fewer
    · have rows := Nat.mul_le_mul_right hands
        (show (hand hands k items).length ≤ items.length / hands by omega)
      omega
    · have rows := Nat.mul_le_mul_right hands
        (show (hand hands k items).length + 1 ≤ items.length / hands by omega)
      rw [Nat.succ_mul] at rows
      omega

/-- Lists gathered in the order of their hands start where those in front of them end. -/
theorem getElem?_gathered {hands : Nat} (lists : Fin hands → List α) (k : Fin hands) {i : Nat}
    (inside : i < (lists k).length) :
    ((List.finRange hands).flatMap lists)[
      (((List.finRange hands).take k).flatMap lists).length + i]? = (lists k)[i]? := by
  -- The list of the hand stands between those in front of it and those behind it.
  have bound : k.val < (List.finRange hands).length := by simp
  have split : List.finRange hands =
      (List.finRange hands).take k ++ k :: (List.finRange hands).drop (k + 1) := by
    have behind : (List.finRange hands).drop k = k :: (List.finRange hands).drop (k + 1) := by
      rw [List.drop_eq_getElem_cons bound]
      simp
    rw [← behind, List.take_append_drop]
  have gathered : (List.finRange hands).flatMap lists =
      ((List.finRange hands).take k).flatMap lists ++
        (lists k ++ ((List.finRange hands).drop (k + 1)).flatMap lists) := by
    rw [← List.flatMap_cons, ← List.flatMap_append, ← split]
  rw [gathered, List.getElem?_append_right (Nat.le_add_right _ _), Nat.add_sub_cancel_left,
    List.getElem?_append_left inside]

/-- The first hands hold an item for each full round, and one more where the last round reached. -/
theorem length_hands_take {hands : Nat} (items : List α) : ∀ m, m ≤ hands →
    (((List.finRange hands).take m).flatMap fun k : Fin hands => hand hands k items).length =
      m * (items.length / hands) + min m (items.length % hands) := by
  -- One more hand in front adds its length.
  intro m
  induction m with
  | zero => simp
  | succ m ih =>
    intro bound
    have inside : m < (List.finRange hands).length := by simpa using Nat.lt_of_succ_le bound
    rw [List.take_succ_eq_append_getElem inside, List.flatMap_append, List.length_append,
      ih (by omega)]
    simp only [List.getElem_finRange, List.flatMap_cons, List.flatMap_nil, List.append_nil,
      Fin.val_cast, length_hand (show m < hands by omega), Nat.add_one_mul]
    split
    · omega
    · omega

/-- The place of the item dealt at a position, once all hands are gathered. -/
def seat (hands total j : Nat) : Nat :=
  -- The hands in front of the item's own come first, then the items its own hand was dealt before.
  (j % hands) * (total / hands) + min (j % hands) (total % hands) + j / hands

/-- Every item dealt stands at its seat. -/
theorem getElem?_seat {hands : Nat} (some_hand : 0 < hands) (items : List α) {j : Nat}
    (inside : j < items.length) :
    ((List.finRange hands).flatMap fun k : Fin hands => hand hands k items)[
      seat hands items.length j]? = items[j]? := by
  -- The item is one of its own hand, which starts behind the hands in front of it.
  have turn : j % hands < hands := Nat.mod_lt j some_hand
  have dealt : j / hands * hands + j % hands = j := Nat.div_add_mod' j hands
  have law := getElem?_hand turn items
  have reached : j / hands < (hand hands (j % hands) items).length := by
    by_contra behind
    have bound := (length_le_of_law law _).mp (Nat.le_of_not_lt behind)
    omega
  rw [seat, ← length_hands_take items _ turn.le]
  rw [getElem?_gathered (fun k : Fin hands => hand hands k items) ⟨j % hands, turn⟩ reached, law,
    dealt]

/-- Where every item yields something, what it yields stands where the item does. -/
theorem getElem?_filterMap {items : List α} {yield : α → Option β}
    (yields : ∀ item ∈ items, (yield item).isSome = true) :
    ∀ i : Nat, (items.filterMap yield)[i]? = items[i]?.bind yield := by
  -- No item is skipped, so both lists are followed in step.
  induction items with
  | nil => simp
  | cons item rest ih =>
    intro i
    obtain ⟨yielded, found⟩ := Option.isSome_iff_exists.mp (yields item (by simp))
    rw [List.filterMap_cons_some found]
    cases i with
    | zero => simp [found]
    | succ i => simpa using ih (fun other member => yields other (by simp [member])) i

/-- Where every item yields something, there is as much yielded as there are items. -/
theorem length_filterMap {items : List α} {yield : α → Option β}
    (yields : ∀ item ∈ items, (yield item).isSome = true) :
    (items.filterMap yield).length = items.length := by
  -- As many are yielded as there are items that yield one.
  rw [List.length_filterMap_eq_countP, List.countP_eq_length]
  exact yields

/-- What an item yields stands at the item's seat, if no item yields nothing. -/
theorem getElem?_seat_filterMap {hands : Nat} (some_hand : 0 < hands) {items : List α}
    {yield : α → Option β} (yields : ∀ item ∈ items, (yield item).isSome = true) {j : Nat}
    (inside : j < items.length) :
    ((List.finRange hands).flatMap fun k : Fin hands => (hand hands k items).filterMap yield)[
      seat hands items.length j]? = items[j]?.bind yield := by
  rw [← List.filterMap_flatMap, getElem?_filterMap, getElem?_seat some_hand items inside]
  -- Every item of a hand is one of those dealt.
  intro item member
  exact yields item ((hands_perm some_hand items).mem_iff.mp member)

/-- The seats are exactly the places there are, each taken once. -/
theorem seat_bijOn {hands : Nat} (some_hand : 0 < hands) (total : Nat) :
    Set.BijOn (seat hands total) (Set.Iio total) (Set.Iio total) := by
  -- The seats are followed by dealing the positions themselves.
  have law : ∀ j, j < total →
      ((List.finRange hands).flatMap fun k : Fin hands => hand hands k (List.range total))[
        seat hands total j]? = some j := by
    intro j inside
    have seated := getElem?_seat some_hand (List.range total) (j := j) (by simpa using inside)
    rw [List.length_range] at seated
    rw [seated, List.getElem?_range inside]
  -- A seat is a place in the gathered hands, which are as long as what was dealt.
  have mapsTo : Set.MapsTo (seat hands total) (Set.Iio total) (Set.Iio total) := by
    intro j inside
    obtain ⟨bound, _⟩ := List.getElem?_eq_some_iff.mp (law j inside)
    rw [(hands_perm some_hand (List.range total)).length_eq, List.length_range] at bound
    exact bound
  apply ((Set.finite_lt_nat total).injOn_iff_bijOn_of_mapsTo mapsTo).mp
  -- Two items in one seat are the same item.
  intro j insideJ other insideOther same
  have seated := law j insideJ
  rw [same, law other insideOther] at seated
  exact (Option.some.inj seated).symm

end RoundRobin
