import SlippCrunch.Slippc.ItemGrouping

/-! Item events that were brought together wait for their turn and come back in their order. -/

namespace SlippCrunch

open Regrouping Memory

section Announcing

variable {iblock coded : Memory} {ps m e j : Nat} {bins : ItemBins}

/-- The order in which the events of a block stand once they were brought together. -/
abbrev groupOrder (iblock : Memory) (ps m : Nat) : List Nat := order (itemKey iblock ps) m maxItemsC

/-- A block whose events stand in the order of their items, with their encoded ids. -/
def Encoded (iblock : Memory) (ps m : Nat) (coded : Memory) : Prop :=
  ∀ e i : Nat, (groupOrder iblock ps m)[e]? = some i →
    Carries iblock ps (encodedId iblock ps) i (payloadAt coded ps e)

/-- The item that was announced last, after so many events. -/
def lastKey (iblock : Memory) (ps m : Nat) : Nat → Nat
  | 0 => 0
  | e + 1 => itemKey iblock ps ((groupOrder iblock ps m).getD e 0)

/-- What is known of the bins once so many events were binned again. -/
structure Rebinned (iblock : Memory) (ps m : Nat) (coded : Memory) (e : Nat) (bins : ItemBins) :
    Prop where
  ibuffs : ∀ n, List.Forall₂ (Carries iblock ps (waitingId iblock ps))
    (((groupOrder iblock ps m).take e).filter (itemKey iblock ps · = n)) (bins.ibuffs n)
  ilast : ∀ n, bins.ilast n = 0
  curId : bins.curId = lastKey iblock ps m e
  maxItem : ∀ n, bins.ibuffs n ≠ [] → n < bins.maxItem
  iblock : ∀ position, e * ps ≤ position → bins.iblock position = coded position

/-- Before the first event nothing is binned. -/
theorem rebinned_start : Rebinned iblock ps m coded 0 (ItemBins.start coded) where
  ibuffs := fun _ => by
    rw [List.take_zero, List.filter_nil]
    exact .nil
  ilast := fun _ => rfl
  curId := rfl
  maxItem := fun _ some => absurd rfl some
  iblock := fun _ _ => rfl

/-- Another id entered into a payload is the only thing that changes. -/
theorem Carries.replace {id id' : Nat → Word} {block : Memory}
    (carries : Carries iblock ps id j (payloadAt block ps e)) :
    Carries iblock ps id' j
      (payloadAt (block.setWord (e * ps + itemIdOffset) (id' j)) ps e) where
  id := word_setWord block (e * ps + itemIdOffset) (id' j)
  rest := by
    intro offset inside outside
    -- Outside of the id no byte is written.
    have elsewhere : e * ps + offset ∉ wordSpan (e * ps + itemIdOffset) := by
      rw [mem_wordSpan] at outside ⊢
      omega
    rw [← carries.rest offset inside outside, payloadAt, payloadAt, setWord_of_not_mem elsewhere]

/-- An announced item is the one that the event belongs to. -/
theorem lastKey_add_announced (groupable : Groupable iblock ps m)
    (member : (groupOrder iblock ps m)[e]? = some j) :
    lastKey iblock ps m e + announced (itemKey iblock ps) j = itemKey iblock ps j := by
  obtain ⟨chain, first, _⟩ := order_spec groupable.rising maxItemsC
  have inside : j < m := (mem_order.mp (List.mem_of_getElem? member)).1
  cases e with
  | zero =>
    -- The first event of all announces its item from zero on.
    obtain rfl : j = 0 := first j (by rw [Option.mem_def, List.head?_eq_getElem?]; exact member)
    rw [lastKey, announced, if_pos isNew_zero, if_pos rfl]
    omega
  | succ e =>
    obtain ⟨here, isJ⟩ := List.getElem?_eq_some_iff.mp member
    have follows := List.isChain_iff_getElem.mp chain e here
    have before : (groupOrder iblock ps m).getD e 0 = (groupOrder iblock ps m)[e] := by
      rw [List.getD_eq_getElem?_getD, List.getElem?_eq_getElem (by omega), Option.getD_some]
    rw [isJ] at follows
    rw [lastKey, before]
    rcases follows with ⟨same, old⟩ | ⟨new, some, same⟩
    · rw [announced, if_neg old, same, Nat.add_zero]
    · rw [same]
      exact (add_announced groupable.rising inside new some).1

/-- An event whose id waits for its turn is binned by its item. -/
theorem Rebinned.store (rebinned : Rebinned iblock ps m coded e bins)
    (fits : itemIdOffset + 4 ≤ ps) (groupable : Groupable iblock ps m)
    (encoded : Encoded iblock ps m coded) (member : (groupOrder iblock ps m)[e]? = some j) :
    ∃ done, { bins with
        curId := itemKey iblock ps j
        iblock := bins.iblock.setWord (e * ps + itemIdOffset) (waitingId iblock ps j) }.store
          ps e (itemKey iblock ps j) = some done ∧ Rebinned iblock ps m coded (e + 1) done := by
  have inside : j < m := (mem_order.mp (List.mem_of_getElem? member)).1
  -- The payload is read with the id that its event waits with, and is the event's otherwise.
  have carries : Carries iblock ps (waitingId iblock ps) j (payloadAt
      (bins.iblock.setWord (e * ps + itemIdOffset) (waitingId iblock ps j)) ps e) := by
    have before := (encoded e j member).congr fits
      fun offset _ => (rebinned.iblock (e * ps + offset) (by omega) :
        payloadAt bins.iblock ps e offset = payloadAt coded ps e offset)
    exact before.replace
  refine ⟨_, if_pos (groupable.small j inside), ?_⟩
  constructor
  · intro n
    show List.Forall₂ _ _ (Function.update bins.ibuffs _ (bins.ibuffs _ ++ [_]) n)
    rw [List.take_add_one, member, Option.toList_some, List.filter_append]
    -- Only the bin of the event's own item grows.
    by_cases own : itemKey iblock ps j = n
    · subst own
      rw [Function.update_self]
      apply List.rel_append (rebinned.ibuffs _)
      rw [List.filter_cons_of_pos (by simp), List.filter_nil]
      exact .cons carries .nil
    · rw [Function.update_of_ne (Ne.symm own), List.filter_cons_of_neg (by simpa using own),
        List.filter_nil, List.append_nil]
      exact rebinned.ibuffs n
  · exact rebinned.ilast
  · show itemKey iblock ps j = lastKey iblock ps m (e + 1)
    rw [lastKey, List.getD_eq_getElem?_getD, member, Option.getD_some]
  · intro n some
    show n < if itemKey iblock ps j ≥ bins.maxItem then itemKey iblock ps j + 1 else bins.maxItem
    -- The bound moves past the item if it has to.
    have bounded : n = itemKey iblock ps j ∨ n < bins.maxItem := by
      by_cases own : n = itemKey iblock ps j
      · exact .inl own
      · refine .inr (rebinned.maxItem n ?_)
        simpa only [Function.update_of_ne own] using some
    split <;> omega
  · intro position beyond
    rw [Nat.succ_mul] at beyond
    show bins.iblock.setWord _ _ position = _
    rw [setWord_of_not_mem (by rw [mem_wordSpan]; omega)]
    exact rebinned.iblock position (by omega)

/-- One event is binned by the item that was announced last. -/
theorem unshuffleStep_rebinned (rebinned : Rebinned iblock ps m coded e bins)
    (fits : itemIdOffset + 4 ≤ ps) (groupable : Groupable iblock ps m)
    (encoded : Encoded iblock ps m coded) (member : (groupOrder iblock ps m)[e]? = some j) :
    ∃ done, bins.unshuffleStep ps e = some done ∧ Rebinned iblock ps m coded (e + 1) done := by
  have inside : j < m := (mem_order.mp (List.mem_of_getElem? member)).1
  have few := groupable.gaps j inside
  -- The id is still the encoded one, since only ids before it were replaced.
  have ouid : bins.iblock.word (e * ps + itemIdOffset) = encodedId iblock ps j := by
    rw [← (encoded e j member).id]
    apply word_congr
    rintro position ⟨atLeast, below⟩
    exact rebinned.iblock position (by omega)
  have waiting : idWord (itemFrame iblock ps j) 0
      (BitVec.ofNat 16 (wait (itemKey iblock ps) j)) = waitingId iblock ps j := rfl
  have skip : getIsNewItem (encodedId iblock ps j) = announced (itemKey iblock ps) j := by
    rw [encodedId, getIsNewItem_idWord, BitVec.toNat_ofNat, Nat.mod_eq_of_lt few]
  have sum := lastKey_add_announced groupable member
  simp only [ItemBins.unshuffleStep, readBE4U_eq, writeBE4U_eq, ouid, skip, rebinned.curId, sum]
  by_cases announces : announced (itemKey iblock ps) j ≠ 0
  · -- An event that announces an item has its announcement taken back.
    have cleared : encodeNewItemIntoId (encodedId iblock ps j) (announced (itemKey iblock ps) j) =
        waitingId iblock ps j := by
      rw [encodedId, encodeNewItem_idWord _ _ _ few, BitVec.xor_self]
      rfl
    rw [if_pos announces, cleared]
    exact rebinned.store fits groupable encoded member
  · -- An event that announces nothing has the id already that it waits with.
    have none : announced (itemKey iblock ps) j = 0 := not_not.mp announces
    have same : bins.iblock.setWord (e * ps + itemIdOffset) (waitingId iblock ps j) =
        bins.iblock := by
      have plain : encodedId iblock ps j = waitingId iblock ps j := by
        rw [encodedId, none]
        rfl
      rw [← plain, ← ouid, setWord_word]
    rw [none, Nat.add_zero] at sum
    obtain ⟨done, stored, again⟩ := rebinned.store fits groupable encoded member
    rw [same, ← sum, ← rebinned.curId] at stored
    rw [if_neg announces]
    exact ⟨done, rebinned.curId ▸ stored, again⟩

/-- All events are binned again, each with the id that it waits with. -/
theorem unshuffle_rebinned (fits : itemIdOffset + 4 ≤ ps) (groupable : Groupable iblock ps m)
    (encoded : Encoded iblock ps m coded) (atMost : e ≤ m) :
    ∃ done, (List.range e).foldlM (ItemBins.unshuffleStep ps) (ItemBins.start coded) = some done ∧
      Rebinned iblock ps m coded e done := by
  -- The events are binned one by one, in the order of their items.
  induction e with
  | zero => exact ⟨_, rfl, rebinned_start⟩
  | succ e ih =>
    obtain ⟨bins, folded, rebinned⟩ := ih (by omega)
    have here : e < (groupOrder iblock ps m).length := by
      rw [order_length groupable.small]
      omega
    obtain ⟨done, stepped, rebinned⟩ := unshuffleStep_rebinned rebinned fits groupable encoded
      (List.getElem?_eq_getElem here)
    refine ⟨done, ?_, rebinned⟩
    rw [List.range_succ, List.foldlM_append, folded]
    simp [stepped]

/-- Once all events are binned again, each item has its events in their order. -/
theorem Rebinned.all (rebinned : Rebinned iblock ps m coded m bins)
    (groupable : Groupable iblock ps m) (n : Nat) :
    List.Forall₂ (Carries iblock ps (waitingId iblock ps)) (bin (itemKey iblock ps) m n)
      (bins.ibuffs n) := by
  have binned := rebinned.ibuffs n
  -- All events were binned, so the order is taken as a whole.
  rw [List.take_of_length_le (order_length groupable.small).le] at binned
  by_cases tracked : n < maxItemsC
  · rwa [order_filter tracked] at binned
  · -- Nothing belongs to an item that is not tracked.
    have none : (groupOrder iblock ps m).filter (itemKey iblock ps · = n) = [] := by
      rw [List.filter_eq_nil_iff]
      intro i member
      have := (mem_order.mp member).2
      simp only [decide_eq_true_eq]
      omega
    have none' : bin (itemKey iblock ps) m n = [] := by
      rw [bin_eq_nil_iff]
      intro i inside
      have := groupable.small i inside
      omega
    rwa [none', ← none]

end Announcing

section Replay

variable {iblock : Memory} {ps m t : Nat} {bins : ItemBins} {replay : ItemReplay}

/-- What is known once so many events were put back. -/
structure Replayed (iblock : Memory) (ps m t : Nat) (replay : ItemReplay) : Prop where
  atMost : t ≤ m
  waited : replay.waited = t - lastNew (itemKey iblock ps) t
  evTotal : replay.evTotal = t
  ipos : ∀ n, replay.ipos n = (bin (itemKey iblock ps) t n).length
  ilast : ∀ n, replay.ilast n = lastSeen (itemKey iblock ps) n t
  copied : List.Forall₂ (Carries iblock ps (itemId iblock ps)) (List.range t) replay.copied
  start : ∀ i < m, itemKey iblock ps i < replay.start → i < t

/-- The items of a block with the events they wait with. -/
def Waiting (iblock : Memory) (ps m : Nat) (bins : ItemBins) : Prop :=
  ∀ n, List.Forall₂ (Carries iblock ps (waitingId iblock ps)) (bin (itemKey iblock ps) m n)
    (bins.ibuffs n)

/-- The event whose turn it is is put back with its own id. -/
theorem Replayed.copyBack (replayed : Replayed iblock ps m t replay)
    (groupable : Groupable iblock ps m) (inside : t < m) {payload : Payload}
    (carries : Carries iblock ps (waitingId iblock ps) t payload) :
    Replayed iblock ps m (t + 1)
      (replay.copyBack (itemKey iblock ps t) (waitingId iblock ps t) payload) := by
  -- Nothing of an item was put back exactly if its first event is to come.
  have isNew : replay.ipos (itemKey iblock ps t) = 0 ↔ IsNew (itemKey iblock ps) t := by
    rw [replayed.ipos, List.length_eq_zero_iff, isNew_iff]
  constructor
  · exact inside
  · show (if _ then 0 else replay.waited) + 1 = t + 1 - lastNew (itemKey iblock ps) (t + 1)
    -- The waiting time starts again with a new item, and goes on otherwise.
    have bounded := lastNew_le (itemKey iblock ps) t
    rw [lastNew, replayed.waited]
    by_cases new : IsNew (itemKey iblock ps) t
    · rw [if_pos (isNew.mpr new), if_pos new]
      omega
    · rw [if_neg (mt isNew.mp new), if_neg new]
      omega
  · show replay.evTotal + 1 = t + 1
    rw [replayed.evTotal]
  · intro n
    show Function.update replay.ipos _ _ n = _
    rw [bin_succ, List.length_append, Function.update_apply, replayed.ipos, replayed.ipos]
    by_cases own : itemKey iblock ps t = n
    · rw [if_pos own, if_pos own.symm, own, List.length_singleton]
    · rw [if_neg own, if_neg (Ne.symm own), List.length_nil, Nat.add_zero]
  · intro n
    show Function.update replay.ilast _ _ n = _
    rw [lastSeen, Function.update_apply, replayed.evTotal, replayed.ilast]
    by_cases own : itemKey iblock ps t = n
    · rw [if_pos own, if_pos own.symm]
    · rw [if_neg own, if_neg (Ne.symm own)]
  · show List.Forall₂ _ _ (replay.copied ++ [_])
    rw [List.range_succ]
    refine List.rel_append replayed.copied (.cons ⟨?_, ?_⟩ .nil)
    · -- Taking the waiting time out of the id leaves the id as it was.
      rw [writeBE4U_eq, word_setWord, waitingId, encodeWait_idWord, ← groupable.itemId_eq inside]
    · intro offset small outside
      rw [writeBE4U_eq, setWord_of_not_mem outside]
      exact carries.rest offset small outside
  · intro i below lower
    have := replayed.start i below lower
    omega

/-- The next event of an item that is not exhausted, and what tells whether it is its turn. -/
theorem Replayed.next (replayed : Replayed iblock ps m t replay) (groupable : Groupable iblock ps m)
    (waiting : Waiting iblock ps m bins) {n : Nat} {payload : Payload}
    (found : (bins.ibuffs n)[replay.ipos n]? = some payload)
    (appeared : Appeared (itemKey iblock ps) m n t) :
    ∃ i, Carries iblock ps (waitingId iblock ps) i payload ∧
      (t ≤ i ∧ i < m ∧ itemKey iblock ps i = n ∧ ∀ j, t ≤ j → j < i → itemKey iblock ps j ≠ n) ∧
      (replay.ipos n = 0 ↔ IsNew (itemKey iblock ps) i) ∧
      ((if replay.ipos n = 0 then getWaitFromItemId (waitingId iblock ps i) = replay.waited
        else getWaitFromItemId (waitingId iblock ps i) = replay.evTotal - replay.ilast n) ↔
          i = t) := by
  -- The payload is that of the item's first event that was not put back.
  obtain ⟨i, isNext, carries⟩ := related_at (waiting n).flip found
  rw [replayed.ipos] at isNext
  have spec := next_spec replayed.atMost isNext
  obtain ⟨ordered, inside, own, others⟩ := spec
  have isNew : replay.ipos n = 0 ↔ IsNew (itemKey iblock ps) i := by
    rw [replayed.ipos, List.length_eq_zero_iff, bin_eq_nil_iff]
    constructor
    · intro absent j before same
      rcases Nat.lt_or_ge j t with earlier | later
      · exact absent j earlier (same.trans own)
      · exact others j later before (same.trans own)
    · intro new j before same
      exact new j (by omega) (same.trans own.symm)
  refine ⟨i, carries, ⟨ordered, inside, own, others⟩, isNew, ?_⟩
  -- Its id tells how long it waits, since the item appeared or since the item's event before.
  have time : getWaitFromItemId (waitingId iblock ps i) = wait (itemKey iblock ps) i := by
    rw [waitingId, getWait_idWord, BitVec.toNat_ofNat, Nat.mod_eq_of_lt (groupable.waits i inside)]
  rw [time, replayed.waited, replayed.evTotal, replayed.ilast]
  -- A new item waits for the item announced before, and an old one for its own last event.
  by_cases new : IsNew (itemKey iblock ps) i
  · rw [if_pos (isNew.mpr new)]
    exact new_turn_iff groupable.rising inside ordered new (own ▸ appeared)
  · rw [if_neg (mt isNew.mp new), ← own]
    exact old_turn_iff ordered new (own ▸ others)

/-- An item of which all events were put back may move the start on. -/
theorem Replayed.exhaust (replayed : Replayed iblock ps m t replay) {n : Nat}
    (before : ∀ i < m, itemKey iblock ps i = n → i < t) :
    Replayed iblock ps m t
      { replay with start := if n = replay.start then replay.start + 1 else replay.start } := by
  refine { replayed with start := ?_ }
  intro i inside lower
  -- Only the start itself moves on, and then past an item without events left.
  by_cases first : n = replay.start
  · rw [if_pos first] at lower
    have near : itemKey iblock ps i < replay.start + 1 := lower
    rcases Nat.lt_or_ge (itemKey iblock ps i) replay.start with below | atLeast
    · exact replayed.start i inside below
    · exact before i inside (by omega)
  · rw [if_neg first] at lower
    exact replayed.start i inside lower

/-- How far one look at the items from one on has come. -/
structure Advanced (iblock : Memory) (ps m t left n : Nat) (written : Bool)
    (state : ItemReplay × Bool) (t' : Nat) : Prop where
  further : t ≤ t'
  replayed : Replayed iblock ps m t' state.1
  written : state.2 = (written || decide (t < t'))
  progress : t < m → n ≤ itemKey iblock ps t → itemKey iblock ps t < n + left → t < t'

/-- A look that goes on with the next item without an event put back. -/
theorem Advanced.skip {left n t' : Nat} {written : Bool} {state : ItemReplay × Bool}
    (advanced : Advanced iblock ps m t left (n + 1) written state t')
    (other : t < m → itemKey iblock ps t ≠ n) :
    Advanced iblock ps m t (left + 1) n written state t' where
  further := advanced.further
  replayed := advanced.replayed
  written := advanced.written
  progress := fun inside atLeast below =>
    have := other inside
    advanced.progress inside (by omega) (by omega)

/-- A look at the items puts back the event whose turn it is, if it reaches its item. -/
theorem pass_advanced (groupable : Groupable iblock ps m) (waiting : Waiting iblock ps m bins)
    (left : Nat) {n : Nat} (written : Bool) (replayed : Replayed iblock ps m t replay)
    (appeared : Appeared (itemKey iblock ps) m n t) :
    ∃ t', Advanced iblock ps m t left n written
      (ItemReplay.pass bins left n (replay, written)) t' := by
  -- The induction is on the items that are left; each either is passed over or gives one event.
  induction left generalizing n t replay written with
  | zero => exact ⟨t, le_refl t, replayed, by simp [ItemReplay.pass], fun _ _ _ => by omega⟩
  | succ left ih =>
    -- Once the first event of the item has come, the items before the next one have all appeared.
    have appearedNext : ∀ {t' : Nat}, t ≤ t' →
        (∀ i < m, IsNew (itemKey iblock ps) i → itemKey iblock ps i = n → i < t') →
        Appeared (itemKey iblock ps) m (n + 1) t' := by
      intro t' ordered own i inside new lower
      rcases Nat.lt_or_ge (itemKey iblock ps i) n with below | atLeast
      · exact Nat.lt_of_lt_of_le (appeared i inside new below) ordered
      · exact own i inside new (by omega)
    have exhausted (before : ∀ i < m, itemKey iblock ps i = n → i < t) :
        Appeared (itemKey iblock ps) m (n + 1) t ∧ (t < m → itemKey iblock ps t ≠ n) :=
      ⟨appearedNext (le_refl t) fun i inside _ own => before i inside own,
        fun inside own => absurd (before t inside own) (Nat.lt_irrefl t)⟩
    rw [ItemReplay.pass]
    by_cases empty : bins.icount n = 0
    · have before : ∀ i < m, itemKey iblock ps i = n → i < t := by
        intro i inside own
        have none := (waiting n).length_eq
        rw [show (bins.ibuffs n).length = 0 from empty, List.length_eq_zero_iff] at none
        exact absurd own (bin_eq_nil_iff.mp none i inside)
      obtain ⟨appearedMore, other⟩ := exhausted before
      obtain ⟨t', advanced⟩ := ih written replayed appearedMore
      rw [if_pos empty]
      exact ⟨t', advanced.skip other⟩
    · rw [if_neg empty]
      cases isNext : (bins.ibuffs n)[replay.ipos n]? with
      | none =>
        have before : ∀ i < m, itemKey iblock ps i = n → i < t := by
          intro i inside own
          have atLeast := List.getElem?_eq_none_iff.mp isNext
          rw [replayed.ipos, ← (waiting n).length_eq] at atLeast
          have split := congrArg List.length (bin_split (itemKey iblock ps) n
            replayed.atMost)
          rw [List.length_append] at split
          exact all_before replayed.atMost (by omega) inside own
        obtain ⟨appearedMore, other⟩ := exhausted before
        obtain ⟨t', advanced⟩ := ih written (replayed.exhaust before) appearedMore
        exact ⟨t', advanced.skip other⟩
      | some payload =>
        obtain ⟨i, carries, ⟨ordered, inside, own, others⟩, isNew, turn⟩ :=
          replayed.next groupable waiting isNext appeared
        show ∃ t', Advanced iblock ps m t (left + 1) n written (ite _ _ _) t'
        rw [readBE4U_eq, carries.id]
        by_cases isTurn : i = t
        · rw [if_pos (turn.mpr isTurn)]
          rw [isTurn] at carries inside own ⊢
          subst own
          have appearedMore : Appeared (itemKey iblock ps) m (itemKey iblock ps t + 1) (t + 1) := by
            refine appearedNext (Nat.le_succ t) fun i _ new own => ?_
            by_contra later
            exact new t (by omega) own.symm
          obtain ⟨t', advanced⟩ := ih true (replayed.copyBack groupable inside carries)
            appearedMore
          have further := advanced.further
          refine ⟨t', by omega, advanced.replayed, ?_, fun _ _ _ => by omega⟩
          rw [advanced.written, decide_eq_true (show t < t' by omega), Bool.true_or, Bool.or_true]
        · rw [if_neg (mt turn.mp isTurn)]
          have other : itemKey iblock ps t ≠ n := others t (le_refl t) (by omega)
          by_cases first : replay.ipos n = 0
          · -- A new item that has to wait: no item from here on has the event whose turn it is.
            rw [if_pos first]
            refine ⟨t, le_refl t, replayed, by simp, fun _ atLeast _ => ?_⟩
            exact absurd (isNew.mp first)
              (not_new_of_lower (t := t) groupable.rising inside (by omega) (by omega))
          · have appearedMore : Appeared (itemKey iblock ps) m (n + 1) t := by
              refine appearedNext (le_refl t) fun j _ new same => ?_
              rw [replayed.ipos, List.length_eq_zero_iff, bin_eq_nil_iff] at first
              obtain ⟨earlier, before, sameKey⟩ : ∃ k < t, itemKey iblock ps k = n := by
                simpa only [not_forall, not_not, exists_prop] using first
              by_contra later
              exact new earlier (by omega) (sameKey.trans same.symm)
            obtain ⟨t', advanced⟩ := ih written replayed appearedMore
            rw [if_neg first]
            exact ⟨t', advanced.skip fun _ => other⟩

/-- The item of every event is below the bound of the items that were met. -/
theorem Waiting.tracked (waiting : Waiting iblock ps m bins)
    (tracked : ∀ n, bins.ibuffs n ≠ [] → n < bins.maxItem) (inside : t < m) :
    itemKey iblock ps t < bins.maxItem := by
  -- Otherwise nothing was binned by it, not even the event itself.
  refine tracked _ fun none => ?_
  have related := waiting (itemKey iblock ps t)
  rw [none, List.forall₂_nil_right_iff] at related
  exact bin_eq_nil_iff.mp related t inside rfl

/-- The items are looked at again until all events of the block were put back. -/
theorem unshuffleLoop_spec (groupable : Groupable iblock ps m) (waiting : Waiting iblock ps m bins)
    (tracked : ∀ n, bins.ibuffs n ≠ [] → n < bins.maxItem) {fuel : Nat}
    (replayed : Replayed iblock ps m t replay) (enough : m < t + fuel) :
    ∃ copied, ItemReplay.unshuffleLoop bins m fuel replay = (true, copied) ∧
      List.Forall₂ (Carries iblock ps (itemId iblock ps)) (List.range m) copied := by
  -- Every look puts back at least one event, so that the fuel is never used up.
  induction fuel generalizing t replay with
  | zero =>
    have := replayed.atMost
    omega
  | succ fuel ih =>
    have count : replay.copied.length = t := by
      rw [← replayed.copied.length_eq, List.length_range]
    rw [ItemReplay.unshuffleLoop, count]
    by_cases more : t < m
    · have appeared : Appeared (itemKey iblock ps) m replay.start t :=
        fun i inside _ lower => replayed.start i inside lower
      obtain ⟨t', advanced⟩ := pass_advanced groupable waiting (bins.maxItem - replay.start)
        false replayed appeared
      have lowest : replay.start ≤ itemKey iblock ps t := by
        by_contra lower
        exact Nat.lt_irrefl t (replayed.start t more (by omega))
      have highest := waiting.tracked tracked more
      have further := advanced.progress more lowest (by omega)
      obtain ⟨copied, looped, carried⟩ := ih advanced.replayed (by omega)
      refine ⟨copied, ?_, carried⟩
      rw [if_pos more]
      show (if (ItemReplay.pass bins (bins.maxItem - replay.start) replay.start
        (replay, false)).2 then _ else _) = _
      rw [advanced.written, Bool.false_or, if_pos (decide_eq_true further)]
      exact looped
    · have all : t = m := by
        have := replayed.atMost
        omega
      rw [if_neg more]
      exact ⟨replay.copied, rfl, all ▸ replayed.copied⟩

end Replay

section RoundTrip

variable {iblock coded : Memory} {ps m : Nat}

/-- Every byte of a block belongs to one of its events. -/
theorem exists_event {position : Nat} (inside : position < m * ps) :
    ∃ e < m, ∃ offset < ps, position = e * ps + offset := by
  -- The event is the quotient by the size, and the offset the remainder.
  have positive : 0 < ps := Nat.pos_of_ne_zero fun zero => by simp [zero] at inside
  refine ⟨position / ps, ?_, position % ps, Nat.mod_lt _ positive, ?_⟩
  · exact (Nat.div_lt_iff_lt_mul positive).mpr inside
  · rw [Nat.mul_comm]
    exact (Nat.div_add_mod position ps).symm

/-- A payload with the id of its event is the event. -/
theorem Carries.eq {i : Nat} {payload : Payload}
    (carries : Carries iblock ps (itemId iblock ps) i payload) {offset : Nat} (inside : offset < ps) :
    payload offset = iblock (i * ps + offset) := by
  -- A byte belongs to the id or to what is kept beside it.
  by_cases own : offset ∈ wordSpan itemIdOffset
  · have same : payload.word itemIdOffset = (payloadAt iblock ps i).word itemIdOffset :=
      carries.id
    exact eqOn_of_word_eq same own
  · exact carries.rest offset inside own

/-- Events in the order of their items, with their encoded ids, come back in their own order. -/
theorem unshuffleItems_encoded (fits : itemIdOffset + 4 ≤ ps) (some_event : 0 < m)
    (groupable : Groupable iblock ps m) (encoded : Encoded iblock ps m coded) :
    unshuffleItems ps coded (m * ps) = some (true, coded.copy 0 iblock 0 (m * ps)) := by
  have positive : 0 < ps := by
    have : itemIdOffset = 34 := rfl
    omega
  obtain ⟨bins, folded, rebinned⟩ := unshuffle_rebinned fits groupable encoded (Nat.le_refl m)
  -- Putting events back starts with none of them.
  let begun : ItemReplay :=
    { start := 0, waited := 0, evTotal := 0, ipos := fun _ => 0, ilast := bins.ilast, copied := [] }
  have replayed : Replayed iblock ps m 0 begun :=
    { atMost := Nat.zero_le m
      waited := rfl
      evTotal := rfl
      ipos := fun _ => rfl
      ilast := rebinned.ilast
      copied := .nil
      start := fun _ _ none => absurd none (Nat.not_lt_zero _) }
  obtain ⟨copied, looped, carried⟩ := unshuffleLoop_spec groupable (rebinned.all groupable)
    rebinned.maxItem replayed (show m < 0 + (m + 1) by omega)
  have result : unshuffleItems ps coded (m * ps) =
      some (true, writePayloads ps bins.iblock copied) := by
    have someItem : bins.maxItem ≠ 0 := by
      have highest :=
        Waiting.tracked (rebinned.all groupable) rebinned.maxItem some_event
      omega
    rw [unshuffleItems, eventCount_mul positive, folded]
    simp only [Option.bind_eq_bind, Option.bind_some, someItem, if_false]
    show some ((ItemReplay.unshuffleLoop bins m (m + 1) begun).1,
      writePayloads ps bins.iblock (ItemReplay.unshuffleLoop bins m (m + 1) begun).2) = _
    rw [looped]
  rw [result, Option.some.injEq, Prod.mk.injEq]
  refine ⟨rfl, ?_⟩
  -- All events were put back, in their order and with their own ids.
  have count : copied.length = m := by
    rw [← carried.length_eq, List.length_range]
  obtain ⟨written, beyond⟩ := writePayloads_spec ps bins.iblock copied
  funext position
  by_cases inside : position < m * ps
  · -- Inside of the block a byte is that of an event put back, and behind it nothing changed.
    obtain ⟨e, isEvent, offset, small, rfl⟩ := exists_event inside
    obtain ⟨payload, found, carries⟩ := related_at carried (List.getElem?_range isEvent)
    have whole : coded.copy 0 iblock 0 (m * ps) (0 + (e * ps + offset)) =
        iblock (0 + (e * ps + offset)) := copy_inside inside
    rw [Nat.zero_add] at whole
    rw [written e payload found offset small, carries.eq small, whole]
  · rw [beyond position (by rw [count]; omega), rebinned.iblock position (by omega),
      copy_outside (.inr (by omega))]

/-- A block of four events of the items 2, 5, 2 and 5. -/
def sampleItems : Memory := fun position =>
  if position % 38 = 37 then if position / 38 % 2 = 0 then 2 else 5
  else if position % 38 = 36 ∨ position % 38 = 35 then 0
  else BitVec.ofNat 8 (position / 38)

end RoundTrip

end SlippCrunch
