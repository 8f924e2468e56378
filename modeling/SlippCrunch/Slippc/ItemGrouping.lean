import SlippCrunch.Basis.Regrouping
import SlippCrunch.Slippc.ItemIds

/-! Item events brought together by item, each with what tells where it came from. -/

namespace SlippCrunch

open Regrouping Memory

section Block

variable (iblock : Memory) (ps : Nat)

/-- The id of an item event of a block. -/
def itemId (i : Nat) : Word := iblock.word (i * ps + itemIdOffset)

/-- The item of an event of a block. -/
def itemKey (i : Nat) : Nat := itemUid (itemId iblock ps i)

/-- The frame modulus of an event of a block. -/
def itemFrame (i : Nat) : Byte := (itemId iblock ps i).extractLsb' 24 8

/-- The id of an event once it waits for its turn. -/
def waitingId (i : Nat) : Word :=
  idWord (itemFrame iblock ps i) 0 (BitVec.ofNat 16 (wait (itemKey iblock ps) i))

/-- The id of an event once it waits for its turn and announces its item. -/
def encodedId (i : Nat) : Word :=
  idWord (itemFrame iblock ps i) (BitVec.ofNat 8 (announced (itemKey iblock ps) i))
    (BitVec.ofNat 16 (wait (itemKey iblock ps) i))

/-- A block of so many item events that can be grouped: items in rising order, close together. -/
structure Groupable (m : Nat) : Prop where
  small : ∀ i < m, itemKey iblock ps i < maxItemsC
  rising : Rising (itemKey iblock ps) m
  gaps : ∀ i < m, announced (itemKey iblock ps) i < 256
  waits : ∀ i < m, wait (itemKey iblock ps) i < 65536

instance (m : Nat) : Decidable (Groupable iblock ps m) :=
  decidable_of_iff ((∀ i < m, itemKey iblock ps i < maxItemsC) ∧ Rising (itemKey iblock ps) m ∧
      (∀ i < m, announced (itemKey iblock ps) i < 256) ∧ ∀ i < m, wait (itemKey iblock ps) i < 65536)
    ⟨fun ⟨small, rising, gaps, waits⟩ => ⟨small, rising, gaps, waits⟩,
      fun groupable => ⟨groupable.small, groupable.rising, groupable.gaps, groupable.waits⟩⟩

/-- A payload is that of an event of the block, with another id in place of its own. -/
structure Carries (id : Nat → Word) (i : Nat) (payload : Payload) : Prop where
  id : payload.word itemIdOffset = id i
  rest : ∀ offset < ps, offset ∉ wordSpan itemIdOffset → payload offset = iblock (i * ps + offset)

/-- What is known of the bins before an event. -/
structure Binned (i : Nat) (bins : ItemBins) : Prop where
  ibuffs : ∀ n, List.Forall₂ (Carries iblock ps (encodedId iblock ps))
    (bin (itemKey iblock ps) i n) (bins.ibuffs n)
  ilast : ∀ n, bins.ilast n = lastSeen (itemKey iblock ps) n i
  firstItem : bins.firstItem = decide (i = 0)
  wait : bins.wait = i - lastNew (itemKey iblock ps) i
  evTotal : bins.evTotal = i
  iblock : ∀ position, i * ps ≤ position → bins.iblock position = iblock position

variable {iblock ps} {m i : Nat} {bins : ItemBins}

/-- Before the first event nothing is binned. -/
theorem binned_start : Binned iblock ps 0 (ItemBins.start iblock) where
  ibuffs := fun _ => .nil
  ilast := fun _ => rfl
  firstItem := rfl
  wait := rfl
  evTotal := rfl
  iblock := fun _ _ => rfl

/-- An item's count is the number of its events before. -/
theorem Binned.icount (binned : Binned iblock ps i bins) (n : Nat) :
    bins.icount n = (bin (itemKey iblock ps) i n).length := (binned.ibuffs n).length_eq.symm

/-- The id of the next event is still there. -/
theorem Binned.ouid (binned : Binned iblock ps i bins) :
    readBE4U bins.iblock (i * ps + itemIdOffset) = itemId iblock ps i := by
  -- The ids that were overwritten are those of earlier events.
  rw [readBE4U_eq]
  apply word_congr
  rintro position ⟨atLeast, _⟩
  exact binned.iblock position (by omega)

/-- The id of a tracked item, in its parts. -/
theorem Groupable.itemId_eq (groupable : Groupable iblock ps m) (inside : i < m) :
    itemId iblock ps i =
      idWord (itemFrame iblock ps i) 0 (BitVec.ofNat 16 (itemKey iblock ps i)) :=
  eq_idWord_of_small (groupable.small i inside)

/-- The search for the next lower item finds what a new item announces. -/
theorem Binned.findSkip_eq (binned : Binned iblock ps i bins) {uid target : Nat}
    (missing : ∀ skip < target, bin (itemKey iblock ps) i (uid - skip) = [])
    (found : bin (itemKey iblock ps) i (uid - target) ≠ []) {left skip : Nat}
    (atMost : skip ≤ target) (enough : target < skip + left) :
    bins.findSkip uid left skip = some target := by
  -- The search goes down one item at a time, and the first that has events ends it.
  induction left generalizing skip with
  | zero => omega
  | succ left ih =>
    rw [ItemBins.findSkip, binned.icount]
    rcases Nat.eq_or_lt_of_le atMost with same | earlier
    · subst same
      rw [if_neg (fun none => found (List.length_eq_zero_iff.mp none))]
    · rw [missing skip earlier, List.length_nil, if_pos rfl]
      exact ih (by omega) (by omega)

/-- A payload copied after its id was replaced is that of its event, with the new id. -/
theorem carries_payloadAt {block : Memory} {id : Nat → Word}
    (same : ∀ position, i * ps ≤ position → block position = iblock position) :
    Carries iblock ps id i (payloadAt (block.setWord (i * ps + itemIdOffset) (id i)) ps i) where
  id := by
    have shifted : (payloadAt (block.setWord (i * ps + itemIdOffset) (id i)) ps i).word
        itemIdOffset = (block.setWord (i * ps + itemIdOffset) (id i)).word
          (i * ps + itemIdOffset) := rfl
    rw [shifted, word_setWord]
  rest := by
    intro offset inside outside
    -- Only the id was replaced, and the other bytes lie outside of it.
    have elsewhere : i * ps + offset ∉ wordSpan (i * ps + itemIdOffset) := by
      rw [mem_wordSpan] at outside ⊢
      omega
    rw [payloadAt, setWord_of_not_mem elsewhere]
    exact same _ (by omega)

/-- An event stored with its new id is binned by its item. -/
theorem Binned.store (binned : Binned iblock ps i bins) (fits : itemIdOffset + 4 ≤ ps)
    (groupable : Groupable iblock ps m) (inside : i < m) {newWait : Nat}
    (waited : newWait = i + 1 - lastNew (itemKey iblock ps) (i + 1)) :
    let uid := itemKey iblock ps i
    ∃ done, { bins with
        firstItem := false
        wait := newWait
        ilast := Function.update bins.ilast uid bins.evTotal
        evTotal := bins.evTotal + 1
        iblock := writeBE4U (encodedId iblock ps i) bins.iblock
          (i * ps + itemIdOffset) }.store ps i uid = some done ∧
      Binned iblock ps (i + 1) done := by
  intro uid
  refine ⟨_, if_pos (groupable.small i inside), ?_⟩
  constructor
  · intro n
    show List.Forall₂ _ _ (Function.update bins.ibuffs uid (bins.ibuffs uid ++ [_]) n)
    rw [bin_succ]
    -- Only the bin of the event's own item grows.
    by_cases own : itemKey iblock ps i = n
    · subst own
      rw [if_pos rfl, Function.update_self]
      apply List.rel_append (binned.ibuffs uid)
      refine .cons ?_ .nil
      rw [writeBE4U_eq]
      exact carries_payloadAt binned.iblock
    · rw [if_neg own, List.append_nil, Function.update_of_ne (Ne.symm own)]
      exact binned.ibuffs n
  · intro n
    show Function.update bins.ilast uid bins.evTotal n = _
    -- The last event of the item is now the one binned here.
    rw [lastSeen, Function.update_apply, binned.evTotal, binned.ilast]
    by_cases own : itemKey iblock ps i = n
    · rw [if_pos own, if_pos own.symm]
    · rw [if_neg own, if_neg (Ne.symm own)]
  · exact (decide_eq_false (Nat.succ_ne_zero i)).symm
  · exact waited
  · show bins.evTotal + 1 = i + 1
    rw [binned.evTotal]
  · intro position beyond
    rw [Nat.succ_mul] at beyond
    show writeBE4U _ bins.iblock _ position = _
    -- Events further on are not touched by the new id.
    rw [writeBE4U_eq, setWord_of_not_mem (by rw [mem_wordSpan]; omega)]
    exact binned.iblock position (by omega)

/-- One event is binned, with the id that tells where it came from. -/
theorem shuffleStep_binned (binned : Binned iblock ps i bins) (fits : itemIdOffset + 4 ≤ ps)
    (groupable : Groupable iblock ps m) (inside : i < m) :
    ∃ done, bins.shuffleStep ps i = some done ∧ Binned iblock ps (i + 1) done := by
  have tracked : ¬ maxItemsC ≤ itemKey iblock ps i := not_le.mpr (groupable.small i inside)
  have isUid : (encodeFrameIntoItemId (itemId iblock ps i)
      (getFrameModFromItemId (itemId iblock ps i)).toInt).toNat = itemKey iblock ps i := rfl
  simp only [ItemBins.shuffleStep, binned.ouid, isUid, if_neg tracked, binned.icount,
    List.length_eq_zero_iff, ← isNew_iff, binned.firstItem, decide_eq_true_eq]
  rw [groupable.itemId_eq inside, encodeWait_idWord, encodeWait_idWord]
  by_cases new : IsNew (itemKey iblock ps) i
  · -- A new item announces itself, and events are counted from it on.
    have encoded : encodeNewItemIntoId (idWord (itemFrame iblock ps i) 0 (BitVec.ofNat 16 bins.wait))
        (announced (itemKey iblock ps) i) = encodedId iblock ps i := by
      rw [encodeNewItem_idWord _ _ _ (groupable.gaps i inside), encodedId, binned.wait, wait,
        if_pos new]
      exact congrArg (idWord _ · _) BitVec.zero_xor
    have counted : 1 = i + 1 - lastNew (itemKey iblock ps) (i + 1) := by
      rw [lastNew, if_pos new]
      omega
    rw [if_pos new]
    by_cases first : i = 0
    · subst first
      have fromZero : announced (itemKey iblock ps) 0 = itemKey iblock ps 0 := if_pos new
      rw [fromZero] at encoded
      rw [if_pos rfl, Option.bind_eq_bind, Option.bind_some, encoded]
      exact binned.store fits groupable inside counted
    · have sum := (add_announced groupable.rising inside new (Nat.pos_of_ne_zero first)).1
      have below : itemKey iblock ps i - announced (itemKey iblock ps) i =
          itemKey iblock ps (lastNew (itemKey iblock ps) i) := by omega
      -- Between the item announced last and this one all bins are empty, which ends the search.
      have found : bins.findSkip (itemKey iblock ps i) (itemKey iblock ps i + 1) 0 =
          some (announced (itemKey iblock ps) i) := by
        apply binned.findSkip_eq
        · intro skip small
          exact bin_eq_nil_of_gap groupable.rising inside new (Nat.pos_of_ne_zero first) small
        · rw [below]
          intro none
          exact bin_eq_nil_iff.mp none _ (lastNew_lt _ (Nat.pos_of_ne_zero first)) rfl
        · exact Nat.zero_le _
        · rw [announced]
          split <;> omega
      rw [if_neg first, found, Option.bind_eq_bind, Option.bind_some, encoded]
      exact binned.store fits groupable inside counted
  · -- An item that was met before waits since then.
    have later : decide (i = 0) = false := decide_eq_false fun first => new (first ▸ isNew_zero)
    have encoded : idWord (itemFrame iblock ps i) 0
        (BitVec.ofNat 16 (bins.evTotal - bins.ilast (itemKey iblock ps i))) =
        encodedId iblock ps i := by
      rw [encodedId, announced, if_neg new, binned.evTotal, binned.ilast, wait, if_neg new]
      rfl
    have counted : bins.wait + 1 = i + 1 - lastNew (itemKey iblock ps) (i + 1) := by
      have bounded := lastNew_le (itemKey iblock ps) i
      rw [lastNew, if_neg new, binned.wait]
      omega
    rw [if_neg new, encoded, later]
    exact binned.store fits groupable inside counted

/-- All events before a number are binned. -/
theorem shuffle_binned (fits : itemIdOffset + 4 ≤ ps) (groupable : Groupable iblock ps m)
    (atMost : i ≤ m) :
    ∃ done, (List.range i).foldlM (ItemBins.shuffleStep ps) (ItemBins.start iblock) = some done ∧
      Binned iblock ps i done := by
  induction i with
  | zero => exact ⟨_, rfl, binned_start⟩
  | succ i ih =>
    -- The loop over one event more is the loop before it and one step.
    obtain ⟨bins, folded, binned⟩ := ih (by omega)
    obtain ⟨done, stepped, binned⟩ := shuffleStep_binned binned fits groupable (by omega)
    refine ⟨done, ?_, binned⟩
    rw [List.range_succ, List.foldlM_append, folded]
    simp [stepped]

/-- Gathering goes through all items, the rest being empty once the block is full. -/
theorem gather_eq {iblockLen : Nat} (positive : 0 < ps) (isLength : iblockLen = m * ps)
    {left n : Nat} {gathered : List Payload}
    (total : (gathered ++ (List.range' n left).flatMap bins.ibuffs).length = m) :
    bins.gather ps iblockLen left n gathered =
      some (gathered ++ (List.range' n left).flatMap bins.ibuffs) := by
  subst isLength
  -- The bins left are gone through one by one.
  induction left generalizing n gathered with
  | zero =>
    rw [List.range'_zero, List.flatMap_nil, List.append_nil] at total ⊢
    rw [ItemBins.gather, total, if_pos rfl]
  | succ left ih =>
    rw [ItemBins.gather]
    by_cases full : gathered.length * ps = m * ps
    · have isFull := Nat.eq_of_mul_eq_mul_right positive full
      rw [List.length_append, isFull] at total
      -- A full block leaves no events for the other bins.
      have rest : (List.range' n (left + 1)).flatMap bins.ibuffs = [] :=
        List.length_eq_zero_iff.mp (by omega)
      rw [if_pos full, rest, List.append_nil]
    · rw [List.range'_succ, List.flatMap_cons, ← List.append_assoc] at total ⊢
      rw [if_neg full]
      exact ih total

/-- Where the next payload is written, after some. -/
theorem writePayloads_ind (ps : Nat) (block : Memory) (payloads : List Payload) :
    (payloads.foldl (fun (ind, block) payload => (ind + ps, copy block ind payload 0 ps))
      (0, block)).1 = payloads.length * ps := by
  -- Each payload moves the place on by its size.
  induction payloads using List.reverseRecOn with
  | nil => simp
  | append_singleton payloads payload ih =>
    rw [List.foldl_append, List.foldl_cons, List.foldl_nil, List.length_append, List.length_singleton,
      Nat.add_mul, ← ih]
    simp

/-- Payloads written behind each other are found there, and nothing behind them is changed. -/
theorem writePayloads_spec (ps : Nat) (block : Memory) (payloads : List Payload) :
    (∀ (e : Nat) (payload : Payload), payloads[e]? = some payload → ∀ offset < ps,
      writePayloads ps block payloads (e * ps + offset) = payload offset) ∧
    ∀ position, payloads.length * ps ≤ position →
      writePayloads ps block payloads position = block position := by
  -- The last payload is written behind all others, whose places it does not reach.
  induction payloads using List.reverseRecOn with
  | nil =>
    refine ⟨fun e payload none => by simp at none, fun _ _ => rfl⟩
  | append_singleton payloads payload ih =>
    have last := writePayloads_ind ps block payloads
    have step : writePayloads ps block (payloads ++ [payload]) =
        (writePayloads ps block payloads).copy (payloads.length * ps) payload 0 ps := by
      rw [writePayloads, List.foldl_append, List.foldl_cons, List.foldl_nil, ← last]
      rfl
    obtain ⟨written, beyond⟩ := ih
    rw [step]
    constructor
    · intro e found isFound offset inside
      rcases Nat.lt_trichotomy e payloads.length with earlier | here | later
      · rw [List.getElem?_append_left earlier] at isFound
        -- An earlier payload ends where the last one starts at the latest.
        have gap := entry_end_le earlier ps
        rw [copy_outside (.inl (by omega))]
        exact written e found isFound offset inside
      · subst here
        rw [List.getElem?_concat_length, Option.some.injEq] at isFound
        rw [copy_inside inside, Nat.zero_add, isFound]
      · rw [List.getElem?_eq_none (by simp; omega)] at isFound
        exact absurd isFound (by simp)
    · intro position outside
      rw [List.length_append, List.length_singleton, Nat.add_mul, Nat.one_mul] at outside
      rw [copy_outside (.inr (by omega))]
      exact beyond position (by omega)

/-- What stands at a place of one of two related lists is related to what stands there in the other. -/
theorem related_at {α β : Type} {R : α → β → Prop} {first : List α} {second : List β}
    (related : List.Forall₂ R first second) {e : Nat} {a : α} (found : first[e]? = some a) :
    ∃ b, second[e]? = some b ∧ R a b := by
  -- Both lists are walked through together.
  induction related generalizing e with
  | nil => simp at found
  | @cons head head' tail tail' here _ ih =>
    cases e with
    | zero =>
      rw [List.getElem?_cons_zero, Option.some.injEq] at found
      exact ⟨head', List.getElem?_cons_zero, found ▸ here⟩
    | succ e =>
      rw [List.getElem?_cons_succ] at found ⊢
      exact ih found

/-- A block as it is once its events were brought together. -/
structure Grouped (iblock : Memory) (ps m : Nat) (shuffled : Memory) : Prop where
  events : ∀ e i : Nat, (order (itemKey iblock ps) m maxItemsC)[e]? = some i →
    Carries iblock ps (encodedId iblock ps) i (payloadAt shuffled ps e)
  beyond : ∀ position, m * ps ≤ position → shuffled position = iblock position

/-- A payload is carried by any memory with the same bytes. -/
theorem Carries.congr {id : Nat → Word} {payload twin : Payload} (fits : itemIdOffset + 4 ≤ ps)
    (carries : Carries iblock ps id i payload) (same : ∀ offset < ps, twin offset = payload offset) :
    Carries iblock ps id i twin where
  id := by
    rw [← carries.id]
    exact word_congr fun offset inside => same offset (by rw [mem_wordSpan] at inside; omega)
  rest := fun offset inside outside => (same offset inside).trans (carries.rest offset inside outside)

/-- So many events of full size make up a block of that many events. -/
theorem eventCount_mul (positive : 0 < ps) (m : Nat) : eventCount ps (m * ps) = m := by
  -- Rounding up adds less than one event.
  rw [eventCount, Nat.mul_comm, Nat.add_sub_assoc positive, Nat.mul_add_div positive,
    Nat.div_eq_of_lt (by omega), Nat.add_zero]

/-- The events of a block that can be grouped are brought together. -/
theorem shuffleItems_grouped (fits : itemIdOffset + 4 ≤ ps) (groupable : Groupable iblock ps m) :
    ∃ shuffled, shuffleItems ps iblock (m * ps) = some shuffled ∧ Grouped iblock ps m shuffled := by
  have positive : 0 < ps := by
    have : itemIdOffset = 34 := rfl
    omega
  -- All events are binned before the bins are written one after the other.
  obtain ⟨bins, folded, binned⟩ := shuffle_binned fits groupable (le_refl m)
  let payloads := (List.range' 0 maxItemsC).flatMap bins.ibuffs
  -- Bin by bin the payloads are those of the events in the order of their items.
  have carried : List.Forall₂ (Carries iblock ps (encodedId iblock ps))
      (order (itemKey iblock ps) m maxItemsC) payloads := by
    have same : List.Forall₂ Eq (List.range maxItemsC) (List.range' 0 maxItemsC) := by
      rw [List.forall₂_eq_eq_eq, List.range_eq_range']
    exact List.rel_flatMap same fun n _ equal => equal ▸ binned.ibuffs n
  have count : payloads.length = m := by
    rw [← carried.length_eq]
    exact order_length groupable.small
  have gathered : bins.gather ps (m * ps) maxItemsC 0 [] = some payloads :=
    gather_eq positive rfl count
  -- A payload is found where it was written.
  obtain ⟨written, beyond⟩ := writePayloads_spec ps bins.iblock payloads
  refine ⟨writePayloads ps bins.iblock payloads, ?_, ?_, ?_⟩
  · simp [shuffleItems, eventCount_mul positive, folded, gathered]
  · intro e i member
    obtain ⟨payload, found, carries⟩ := related_at carried member
    exact carries.congr fits (written e payload found)
  · intro position outside
    rw [beyond position (by rw [count]; exact outside)]
    exact binned.iblock position outside

end Block

end SlippCrunch
