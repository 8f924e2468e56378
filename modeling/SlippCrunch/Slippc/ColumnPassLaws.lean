import SlippCrunch.Slippc.ColumnPass
import SlippCrunch.Slippc.ColumnRoundTrip
import SlippCrunch.Slippc.Compressor
import SlippCrunch.Slippc.ItemReplaying

/-! A game whose blocks are arranged in order is restored from its shuffled columns. -/

namespace SlippCrunch

open Sections Memory Regrouping

section Tables

variable {widths : List Int}

/-- A table of the event code and at least one other column, none of them shuffled by bits. -/
structure Plain (widths : List Int) : Prop where
  head : ∃ width rest, widths = 1 :: width :: rest ∧ width > 0
  positive : ∀ column ∈ columnsFrom 0 widths, column.2 > 0

/-- The columns of a table that is cut off are among those that it had. -/
theorem columnsFrom_set (off column : Nat) :
    columnsFrom off (widths.set column 0) ⊆ columnsFrom off widths := by
  induction widths generalizing off column with
  | nil => exact List.Subset.refl _
  | cons width widths ih =>
    -- Cutting at the head leaves no column, and cutting later keeps those before it.
    cases column with
    | zero => exact List.nil_subset _
    | succ column =>
      rw [List.set_cons_succ, columnsFrom, columnsFrom]
      split
      · exact List.Subset.refl _
      · exact List.cons_subset_cons _ (ih _ column)

/-- A table that is cut off behind its first two columns is still one of that kind. -/
theorem Plain.cutBefore (plain : Plain widths) (version : SlippiVersion) (maj min rev : Nat)
    {column : Nat} (behind : 2 ≤ column) :
    Plain (cutBefore version maj min rev column widths) := by
  rw [SlippCrunch.cutBefore]
  split
  · -- The first two widths stay, and what the cut leaves out was positive as well.
    obtain ⟨width, rest, same, positive⟩ := plain.head
    refine ⟨⟨width, rest.set (column - 2) 0, ?_, positive⟩, fun cut member =>
      plain.positive cut (columnsFrom_set 0 column member)⟩
    obtain ⟨column, rfl⟩ := Nat.exists_eq_add_of_le' behind
    rw [same, Nat.add_sub_cancel]
    rfl
  · exact plain

/-- The tables of the newest version are of that kind. -/
theorem newest_plain : Plain ColumnWidths.newest.start ∧ Plain ColumnWidths.newest.mesg ∧
    Plain ColumnWidths.newest.pre ∧ Plain ColumnWidths.newest.item ∧
    Plain ColumnWidths.newest.post ∧ Plain ColumnWidths.newest.finish := by
  -- None of the tables has a column of bits.
  refine ⟨⟨⟨_, _, rfl, ?_⟩, ?_⟩, ⟨⟨_, _, rfl, ?_⟩, ?_⟩, ⟨⟨_, _, rfl, ?_⟩, ?_⟩, ⟨⟨_, _, rfl, ?_⟩, ?_⟩,
    ⟨⟨_, _, rfl, ?_⟩, ?_⟩, ⟨⟨_, _, rfl, ?_⟩, ?_⟩⟩
  all_goals decide

/-- The tables of every version are of that kind. -/
theorem widths_plain (replay : ColumnReplay) : Plain replay.widths.start ∧
    Plain replay.widths.mesg ∧ Plain replay.widths.pre ∧ Plain replay.widths.item ∧
    Plain replay.widths.post ∧ Plain replay.widths.finish := by
  obtain ⟨start, mesg, pre, item, post, finish⟩ := newest_plain
  -- Every version cuts the newest tables, and never before the third column.
  refine ⟨start.cutBefore _ _ _ _ ?_, mesg, (pre.cutBefore _ _ _ _ ?_).cutBefore _ _ _ _ ?_,
    (item.cutBefore _ _ _ _ ?_).cutBefore _ _ _ _ ?_,
    ((((post.cutBefore _ _ _ _ ?_).cutBefore _ _ _ _ ?_).cutBefore _ _ _ _ ?_).cutBefore _ _ _ _
      ?_).cutBefore _ _ _ _ ?_, finish.cutBefore _ _ _ _ ?_⟩
  all_goals decide

end Tables

section Transposition

variable {memStart twin : Memory} {S n off width : Nat}

/-- A column of bytes brought together depends on the bytes of its block only. -/
theorem copyColumn_congr (same : ∀ position < n * S, memStart position = twin position)
    (fits : off + width ≤ S) (state : Nat × Memory) :
    copyColumn true memStart S n off width state = copyColumn true twin S n off width state := by
  apply List.foldl_ext
  rintro ⟨b, buff⟩ e member
  simp only [copyEntry, if_true]
  congr 1
  -- Each entry reads its own bytes of its event, all of them in the block.
  apply copy_congr
  intro offset inside
  rw [Nat.add_assoc]
  exact same _ (row_inside (List.mem_range.mp member) (show off + offset < S by omega)).1

/-- A column of bits brought together depends on the bytes of its block only. -/
theorem copyBits_congr (same : ∀ position < n * S, memStart position = twin position)
    (fits : off + 1 ≤ S) (state : Nat × Memory) :
    copyBits true memStart S n off state = copyBits true twin S n off state := by
  -- Every plane reads the one byte of each event.
  have planes : ∀ ib state, (List.range n).foldl (copyBit true memStart S off ib) state =
      (List.range n).foldl (copyBit true twin S off ib) state := by
    intro ib state
    apply List.foldl_ext
    rintro ⟨cursor, buff⟩ e member
    have byte := same _ (row_inside (List.mem_range.mp member) (show off < S by omega)).1
    simp only [copyBit, if_true, byte]
  simp only [copyBits, planes]

/-- A block brought together depends on its own bytes only. -/
theorem transposeColumns_congr (same : ∀ position < n * S, memStart position = twin position)
    {columns : List (Nat × Int)} (fits : ∀ column ∈ columns, column.1 + columnSize column.2 ≤ S)
    (state : Nat × Memory) :
    columns.foldl (transposeColumn true memStart S n) state =
      columns.foldl (transposeColumn true twin S n) state := by
  apply List.foldl_ext
  rintro state ⟨colOffset, colWidth⟩ member
  -- Column by column, and each column depends on the bytes of its own events.
  have bounded := fits _ member
  simp only [columnSize, transposeColumn] at bounded ⊢
  split
  · rename_i positive
    rw [if_pos positive] at bounded
    exact copyColumn_congr same bounded state
  · rename_i bits
    rw [if_neg bits] at bounded
    exact copyBits_congr same bounded state

/-- A block of bytes copied is a section replaced. -/
theorem copy_eq_splice (target source : Memory) (s size : Nat) :
    target.copy s source 0 size = splice target (fun position => source (position - s)) s (s + size) := by
  funext position
  simp only [copy, splice, Nat.zero_add]

end Transposition

section Block

variable (plain : Memory) (event : Event) (widths : List Int)

/-- So many bytes at a position are events of a kind, whose second byte differs from their code. -/
structure BlockAt (size s : Nat) : Prop where
  some : 0 < size
  whole : structSize widths ∣ size
  codes : ∀ e < size / structSize widths, plain (s + e * structSize widths) = event.code
  differs : plain (s + 1) ≠ event.code

variable {plain event widths} {size s : Nat}

/-- A block of events begins with its code. -/
theorem BlockAt.first (block : BlockAt plain event widths size s) : plain s = event.code := by
  -- The first event of a block begins where the block does.
  have positive : 0 < structSize widths := Nat.pos_of_dvd_of_pos block.whole block.some
  have begins := block.codes 0 (Nat.div_pos (Nat.le_of_dvd block.some block.whole) positive)
  rwa [Nat.zero_mul, Nat.add_zero] at begins

/-- A block of events is shuffled and brought back by replays of any versions and buffers. -/
theorem BlockAt.restores (block : BlockAt plain event widths size s) (table : Plain widths)
    (encoder decoder : ColumnReplay) (enough : size < decoder.fuel) :
    Restores (encoder.transpose size widths) (decoder.revert widths) plain s (s + size) := by
  obtain ⟨width, rest, rfl, positive⟩ := table.head
  have nonempty := structSize_pos (width :: rest)
  obtain ⟨n, rfl⟩ := block.whole
  have codes := block.codes
  have some : 0 < n := Nat.pos_of_mul_pos_left block.some
  rw [Nat.mul_comm] at enough ⊢
  rw [Nat.mul_div_cancel_left n nonempty] at codes
  have entries : n * structSize (1 :: width :: rest) / structSize (1 :: width :: rest) = n :=
    Nat.mul_div_cancel n nonempty
  -- What the block becomes depends on its own bytes, not on the memory that it stands in.
  let rows : Memory := fun position => plain (s + position)
  let done := (columnsFrom 0 (1 :: width :: rest)).foldl
    (transposeColumn true rows (structSize (1 :: width :: rest)) n) (0, encoder.buff s)
  have moves := (transposeColumns_moves true n 0 (encoder.buff s) rows nonempty
    (show 0 + structSize (1 :: width :: rest) ≤ structSize (1 :: width :: rest) by omega)).1
  rw [Nat.mul_zero] at moves
  have fits : ∀ column ∈ columnsFrom 0 (1 :: width :: rest),
      column.1 + columnSize column.2 ≤ structSize (1 :: width :: rest) := fun column member => by
    have := (columnsFrom_bounds member).2
    omega
  have isCode : ∀ e < n, done.2 e = event.code := by
    intro e earlier
    rw [shuffled_code moves earlier]
    exact codes e earlier
  have next : done.2 n = plain (s + 1) := shuffled_next positive some moves
  refine ⟨fun position => done.2 (position - s), Nat.le_add_right s _, fun _ => ?_, ?_, ?_⟩
  · have first := codes 0 some
    rw [Nat.zero_mul, Nat.add_zero] at first
    show done.2 (s - s) = plain s
    rw [Nat.sub_self, isCode 0 some, first]
  · intro target same
    have own : ∀ position < n * structSize (1 :: width :: rest),
        target (s + position) = rows position :=
      fun position _ => same (s + position) (Nat.le_add_right s position)
    simp only [ColumnReplay.transpose, transposeEventColumns, Bool.false_eq_true, if_false,
      Option.map_some, entries, Bool.not_false, transposeColumns_congr own fits, copy_eq_splice]
    rfl
  · intro target same _
    have own : ∀ position < n * structSize (1 :: width :: rest),
        target (s + position) = done.2 position := by
      intro position inside
      rw [same (s + position) (by omega) (by omega), Nat.add_sub_cancel_left]
    have room : n < n * structSize (1 :: width :: rest) := by
      have second : 2 ≤ structSize (1 :: width :: rest) := by
        rw [structSize, structSize, if_neg (by decide), if_neg (by omega), columnSize,
          if_pos (by decide), columnSize, if_pos positive]
        omega
      calc n < n * 2 := by omega
        _ ≤ n * structSize (1 :: width :: rest) := Nat.mul_le_mul_left n second
    have first : target s = event.code := by
      have byte := own 0 (by omega)
      rwa [Nat.add_zero, isCode 0 some] at byte
    -- The decoder counts the codes at the head and stops at the byte behind the first of each column.
    have counted : countCodes (fun position => target (s + position)) (target s) decoder.fuel 0 =
        Option.some n := by
      refine (countCodes_eq_some_iff (first ▸ event.code_small)).mpr ⟨Nat.zero_le n, by omega, ?_, fun position _ earlier => ?_⟩
      · rw [own n room, next, first]
        exact block.differs
      · rw [own position (by omega), isCode position earlier, first]
    obtain ⟨rows', reverted, back⟩ :=
      revertEventColumns_unshuffle (decoder.buff s) nonempty counted
    -- All columns are bytes, so the buffer of the decoder leaves no trace in them.
    have restored : ∀ position < n * structSize (1 :: width :: rest),
        rows' position = rows position :=
      (moved_back_iff moves fun column member =>
        source_congr_of_member member (back column member) own).mpr
        (cancels_of_positive table.positive)
    simp only [ColumnReplay.revert, reverted, Option.map_some]
    rw [copy_eq_splice]
    congr 2
    apply splice_congr
    intro position atLeast below
    rw [restored (position - s) (by omega)]
    show plain (s + (position - s)) = _
    rw [Nat.add_sub_cancel' atLeast]

end Block

section Items

variable {plain grouped : Memory} {s m ps : Nat}

theorem replaceFrom_add (mainBuf tail : Memory) (s position : Nat) :
    ColumnReplay.replaceFrom mainBuf s tail (s + position) = tail position := by
  rw [ColumnReplay.replaceFrom, if_pos (by omega), Nat.add_sub_cancel_left]

theorem replaceFrom_of_lt (mainBuf tail : Memory) {position : Nat} (before : position < s) :
    ColumnReplay.replaceFrom mainBuf s tail position = mainBuf position := if_neg (by omega)

/-- The events of a block of items that was brought together begin as the events of the block. -/
theorem Grouped.begins (isGrouped : Grouped plain ps m grouped) (groupable : Groupable plain ps m)
    {e : Nat} (earlier : e < m) {offset : Nat} (inside : offset < ps) (small : offset < itemIdOffset) :
    ∃ i < m, (e = 0 → i = 0) ∧ grouped (e * ps + offset) = plain (i * ps + offset) := by
  -- The order has an event for every place, and brings its payload with it.
  have here : e < (groupOrder plain ps m).length := by
    rw [order_length groupable.small]
    exact earlier
  have member := List.getElem?_eq_getElem here
  have carries := isGrouped.events e _ member
  refine ⟨_, (mem_order.mp (List.getElem_mem here)).1, ?_, ?_⟩
  · rintro rfl
    -- The first event of the order is the first event of the block.
    exact (order_spec groupable.rising maxItemsC).2.1 _ (List.head?_eq_getElem? ▸ member)
  · -- What stands before the item id is carried along as it was.
    exact carries.rest offset inside (by rw [mem_wordSpan]; omega)

/-- The block of items is still a block once its events were brought together. -/
theorem Grouped.blockAt {widths : List Int} {event : Event}
    (isGrouped : Grouped (fun position => plain (s + position)) (structSize widths) m grouped)
    (groupable : Groupable (fun position => plain (s + position)) (structSize widths) m)
    (fits : itemIdOffset + 4 ≤ structSize widths)
    (block : BlockAt plain event widths (m * structSize widths) s) :
    BlockAt (ColumnReplay.replaceFrom plain s grouped) event widths (m * structSize widths) s := by
  have isOffset : itemIdOffset = 34 := rfl
  have count : m * structSize widths / structSize widths = m := Nat.mul_div_cancel m (by omega)
  have some : 0 < m := Nat.pos_of_mul_pos_right block.some
  refine ⟨block.some, block.whole, fun e earlier => ?_, ?_⟩
  · rw [count] at earlier
    -- Each event begins with the code, whichever event of the block it was.
    obtain ⟨i, inside, _, same⟩ :=
      isGrouped.begins groupable earlier (show 0 < structSize widths by omega) (by omega)
    rw [Nat.add_zero, Nat.add_zero] at same
    rw [replaceFrom_add, same]
    exact block.codes i (by rwa [count])
  · -- The second byte is that of the first event, which stays where it is.
    obtain ⟨i, _, first, same⟩ :=
      isGrouped.begins groupable some (show 1 < structSize widths by omega) (by omega)
    rw [first rfl, Nat.zero_mul, Nat.zero_add] at same
    rw [replaceFrom_add, same]
    exact block.differs

/-- The item id lies in the events of every version. -/
theorem item_fits (replay : ColumnReplay) :
    itemIdOffset + 4 ≤ structSize replay.widths.item := by
  show itemIdOffset + 4 ≤ structSize (cutBefore _ 3 2 0 15 (cutBefore _ 3 6 0 19 _))
  rw [cutBefore, cutBefore]
  -- The item id is a column of the oldest table, so no cut reaches it.
  split
  · split
    · decide
    · decide
  · split
    · decide
    · decide

/-- An encoder of raw replays, and a decoder of replays that it encoded. -/
structure Opposed (encoder decoder : ColumnReplay) : Prop where
  version : decoder.version = encoder.version
  encodes : encoder.encodeVer = 0
  decodes : decoder.encodeVer = compretzVersion
  itemSize : encoder.itemSize = structSize encoder.widths.item
  sameSize : decoder.itemSize = encoder.itemSize
  gameLoopStart : decoder.gameLoopStart = encoder.gameLoopStart

variable {encoder decoder : ColumnReplay}

/-- Opposed replays have the same tables. -/
theorem Opposed.widths (opposed : Opposed encoder decoder) : decoder.widths = encoder.widths := by
  rw [ColumnReplay.widths, opposed.version]
  rfl

/-- The block of items is brought together and put back into its order. -/
theorem items_restores (opposed : Opposed encoder decoder)
    (block : BlockAt plain .itemUpdate encoder.widths.item (m * encoder.itemSize) s)
    (groupable : Groupable (fun position => plain (s + position)) encoder.itemSize m)
    (enough : m * encoder.itemSize < decoder.fuel) :
    Restores (encoder.shuffleItemColumns (m * encoder.itemSize)) decoder.unshuffleItemColumns plain s
      (s + m * encoder.itemSize) := by
  have fits := item_fits encoder
  have some_event : 0 < m := Nat.pos_of_mul_pos_right block.some
  have table := (widths_plain encoder).2.2.2.1
  have sameWidths := opposed.widths
  have shuffles : encodeVersionMin encoder.encodeVer 2 = true := by rw [opposed.encodes]; rfl
  have unshuffles : encodeVersionMin decoder.encodeVer 2 = true := by rw [opposed.decodes]; rfl
  rw [← opposed.itemSize] at fits
  obtain ⟨grouped, shuffled, isGrouped⟩ := shuffleItems_grouped fits groupable
  -- The columns are those of the memory in which the items were brought together.
  let middle := ColumnReplay.replaceFrom plain s grouped
  have stillBlock : BlockAt middle .itemUpdate encoder.widths.item
      (m * encoder.itemSize) s := by
    rw [opposed.itemSize] at isGrouped groupable fits block ⊢
    exact isGrouped.blockAt groupable fits block
  obtain ⟨coded, restored⟩ := stillBlock.restores table encoder decoder enough
  have beyond : ∀ position, s + m * encoder.itemSize ≤ position → middle position = plain position := by
    intro position outside
    have kept := isGrouped.beyond (position - s) (by omega)
    show ColumnReplay.replaceFrom plain s grouped position = _
    rw [ColumnReplay.replaceFrom, if_pos (by omega), kept, Nat.add_sub_cancel' (by omega)]
  refine ⟨coded, restored.ordered, fun some => ?_, fun target same => ?_, fun target same next => ?_⟩
  · rw [restored.head some, stillBlock.first, block.first]
  · have items : (fun position => target (s + position)) = fun position => plain (s + position) :=
      funext fun position => same (s + position) (Nat.le_add_right s position)
    have agrees : ∀ position, s ≤ position →
        ColumnReplay.replaceFrom target s grouped position = middle position := fun position atLeast => by
      show ColumnReplay.replaceFrom _ _ _ _ = ColumnReplay.replaceFrom _ _ _ _
      rw [ColumnReplay.replaceFrom, ColumnReplay.replaceFrom, if_pos atLeast, if_pos atLeast]
    have run := restored.encoded _ agrees
    simp only [ColumnReplay.shuffleItemColumns, shuffles, if_true, items, shuffled, Option.map_some,
      Option.bind_eq_bind, Option.bind_some, run]
    congr 2
    funext position
    by_cases inside : s ≤ position ∧ position < s + m * encoder.itemSize
    · rw [splice_inside inside.1 inside.2, splice_inside inside.1 inside.2]
    · rw [splice_outside (by omega), splice_outside (by omega)]
      by_cases before : position < s
      · exact replaceFrom_of_lt target grouped before
      · rw [agrees position (by omega), beyond position (by omega), same position (by omega)]
  · have run := restored.decoded target same (next.trans (beyond _ (Nat.le_refl _)).symm)
    let reverted := splice target middle s (s + m * encoder.itemSize)
    have encoded : Encoded (fun position => plain (s + position)) encoder.itemSize m
        fun position => reverted (s + position) := by
      intro e i member
      have earlier : e < m := by
        have here := (List.getElem?_eq_some_iff.mp member).1
        rwa [order_length groupable.small] at here
      apply (isGrouped.events e i member).congr fits
      intro offset inside
      have block := (row_inside earlier inside).1
      show splice target middle s (s + m * encoder.itemSize) (s + (e * encoder.itemSize + offset)) = _
      rw [splice_inside (by omega) (by omega)]
      exact replaceFrom_add plain grouped s _
    have back := unshuffleItems_encoded fits some_event groupable encoded
    simp only [ColumnReplay.unshuffleItemColumns, sameWidths, run, Option.bind_eq_bind,
      Option.bind_some, unshuffles, if_true, opposed.sameSize, Nat.add_sub_cancel_left]
    rw [show (fun position => splice target middle s (s + m * encoder.itemSize) (s + position)) =
      fun position => reverted (s + position) from rfl, back, Option.map_some, Option.bind_some]
    congr 2
    funext position
    by_cases before : position < s
    · rw [replaceFrom_of_lt _ _ before, splice_outside (.inl before), splice_outside (.inl before)]
    · obtain ⟨offset, rfl⟩ := Nat.exists_eq_add_of_le (not_lt.mp before)
      rw [replaceFrom_add]
      show Memory.copy (fun position => reverted (s + position)) 0
        (fun position => plain (s + position)) 0 (m * encoder.itemSize) offset = _
      by_cases inside : offset < m * encoder.itemSize
      · have byte : ∀ target : Memory, target.copy 0 (fun position => plain (s + position)) 0
            (m * encoder.itemSize) offset = plain (s + offset) := fun target => by
          simp only [copy, Nat.zero_add, Nat.sub_zero]
          rw [if_pos ⟨Nat.zero_le offset, inside⟩]
        rw [byte, splice_inside (by omega) (by omega)]
      · rw [copy_outside (.inr (by omega)), splice_outside (.inr (by omega))]
        exact splice_outside (.inr (by omega))

end Items

section Players

variable {plain : Memory} {event : Event} {memSize : Nat → Nat} {widths : List Int}

/-- The blocks of some players behind each other, with the position behind all of them. -/
inductive PlayersAt (plain : Memory) (event : Event) (memSize : Nat → Nat) (widths : List Int) :
    List Nat → Nat → Nat → Prop where
  | done {s : Nat} (other : plain s ≠ event.code) : PlayersAt plain event memSize widths [] s s
  | absent {p : Nat} {players : List Nat} {s stop : Nat} (none : memSize (playerAt p) = 0)
      (others : PlayersAt plain event memSize widths players s stop) :
      PlayersAt plain event memSize widths (p :: players) s stop
  | present {p : Nat} {players : List Nat} {s stop : Nat}
      (block : BlockAt plain event widths (memSize (playerAt p)) s)
      (others : PlayersAt plain event memSize widths players (s + memSize (playerAt p)) stop) :
      PlayersAt plain event memSize widths (p :: players) s stop

/-- Where no event of the players begins the rest of them is passed over. -/
theorem shufflePlayers_other (replay : ColumnReplay) (players : List Nat) {place : Place Byte}
    (other : place.memory place.position ≠ event.code) :
    replay.shufflePlayers event memSize widths players place = some place := by
  -- The code is compared before anything is done.
  cases players with
  | nil => rfl
  | cons p players => rw [ColumnReplay.shufflePlayers, if_pos other]

/-- Where no event of the players begins nothing is brought back. -/
theorem unshufflePlayers_other (replay : ColumnReplay) (left : Nat) {place : Place Byte}
    (other : place.memory place.position ≠ event.code) :
    replay.unshufflePlayers event widths left place = some place := by
  -- The code is compared before anything is done.
  cases left with
  | zero => rfl
  | succ left => rw [ColumnReplay.unshufflePlayers, if_pos other]

/-- The blocks of the players do not end before they begin. -/
theorem PlayersAt.le {players : List Nat} {s stop : Nat}
    (arranged : PlayersAt plain event memSize widths players s stop) : s ≤ stop := by
  -- A player without events adds nothing, and one with events a block.
  induction arranged with
  | done => exact Nat.le_refl _
  | absent _ _ ih => exact ih
  | present _ _ ih => omega

/-- The blocks of the players are shuffled and brought back. -/
theorem PlayersAt.restores {players : List Nat} {s stop : Nat}
    (arranged : PlayersAt plain event memSize widths players s stop) (table : Plain widths)
    (encoder decoder : ColumnReplay) (enough : stop - s < decoder.fuel) {left : Nat}
    (few : players.length ≤ left) :
    Restores (encoder.shufflePlayers event memSize widths players)
      (decoder.unshufflePlayers event widths left) plain s stop := by
  -- The induction is on the blocks; a player without events takes none of the looks that are left.
  induction arranged generalizing left with
  | done other =>
    refine Restores.skip (fun _ _ => rfl) fun target same => ?_
    exact unshufflePlayers_other decoder left fun begins => other (same.symm.trans begins)
  | @absent p players s stop none _ ih =>
    refine (ih enough (by simp at few; omega)).congr (fun target _ => ?_) fun _ _ => rfl
    rw [ColumnReplay.shufflePlayers]
    by_cases other : target s ≠ event.code
    · rw [if_pos other, shufflePlayers_other encoder players other]
    · rw [if_neg other, if_pos none]
  | @present p players s stop block others ih =>
    have ordered := others.le
    have first := block.first
    rw [List.length_cons] at few
    obtain ⟨left, rfl⟩ := Nat.exists_eq_add_of_le' (show 1 ≤ left by omega)
    refine ((block.restores table encoder decoder (by omega)).append
      (ih (by omega) (show players.length ≤ left by omega))).congr
        (fun target same => ?_) fun target same => ?_
    · rw [ColumnReplay.shufflePlayers, if_neg (not_not.mpr (same.trans first)),
        if_neg block.some.ne']
    · rw [ColumnReplay.unshufflePlayers, if_neg (not_not.mpr (same.trans first))]

end Players

section Game

variable {encoder decoder : ColumnReplay} {plain : Memory} {offset : Nat → Nat}

/-- A section of at most one block, which is absent where another event begins. -/
structure SectionAt (plain : Memory) (event : Event) (widths : List Int) (size s stop : Nat) :
    Prop where
  block : plain s = event.code → BlockAt plain event widths size s
  ends : stop = if plain s = event.code then s + size else s

/-- A section does not end before it begins. -/
theorem SectionAt.le {event : Event} {widths : List Int} {size s stop : Nat}
    (sectionAt : SectionAt plain event widths size s stop) : s ≤ stop := by
  -- It ends where it begins, or a block later.
  rw [sectionAt.ends]
  split <;> omega

/-- A section is restored if its block is, where there is one. -/
theorem SectionAt.restores {event : Event} {widths : List Int} {size s stop : Nat}
    (sectionAt : SectionAt plain event widths size s stop) {encode decode : Step Byte}
    (block : plain s = event.code → size ≤ stop → Restores encode decode plain s (s + size)) :
    Restores (ColumnReplay.whereEvent event encode) (ColumnReplay.whereEvent event decode) plain s
      stop := by
  have ends := sectionAt.ends
  -- Both passes look at the first byte only, so they agree on whether there is a section.
  by_cases present : plain s = event.code
  · rw [if_pos present] at ends
    rw [ends]
    refine (block present (by omega)).congr (fun target same => ?_) fun target same => ?_
    · exact if_pos (same.trans present)
    · exact if_pos (same.trans present)
  · rw [if_neg present] at ends
    rw [ends]
    refine Restores.skip (fun target same => ?_) fun target same => ?_
    · exact if_neg fun begins => present (same.symm.trans begins)
    · exact if_neg fun begins => present (same.symm.trans begins)

/-- The positions at which the sections of a game begin, and the position behind the last one. -/
structure GameSections where
  mesg : Nat
  start : Nat
  pre : Nat
  item : Nat
  post : Nat
  finish : Nat
  stop : Nat

/-- The events of a game stand in their sections, the items being such that they can be grouped. -/
structure Arranged (replay : ColumnReplay) (offset : Nat → Nat) (plain : Memory)
    (game : GameSections) : Prop where
  begins : game.mesg = replay.gameLoopStart
  mesg : SectionAt plain .splitMsg replay.widths.mesg (offset 19) game.mesg game.start
  start : SectionAt plain .frameStart replay.widths.start (offset 0) game.start game.pre
  pre : PlayersAt plain .preFrame (fun i => offset (1 + i)) replay.widths.pre (List.range 8)
    game.pre game.item
  item : SectionAt plain .itemUpdate replay.widths.item (offset 9) game.item game.post
  items : plain game.item = Event.itemUpdate.code →
    Groupable (fun position => plain (game.item + position)) replay.itemSize
      (offset 9 / replay.itemSize)
  post : PlayersAt plain .postFrame (fun i => offset (10 + i)) replay.widths.post (List.range 8)
    game.post game.finish
  finish : SectionAt plain .bookend replay.widths.finish (offset 18) game.finish game.stop

/-- A replay of version 3.0.0, raw or encoded, whose new buffers are not cleared. -/
def sampleReplay (encodeVer : Byte) : ColumnReplay where
  version := { slippiMaj := 3, slippiMin := 0, slippiRev := 0 }
  encodeVer := encodeVer
  itemSize := 38
  gameLoopStart := 0
  buff := fun _ _ => 0xA5
  fuel := 1024

/-- Two frames of two players and three events of the items 0, 1 and 0. -/
def sampleGame : Memory := fun position =>
  if position ∈ [0, 9] then Event.frameStart.code
  else if position ∈ [18, 82, 146, 210] then Event.preFrame.code
  else if position ∈ [274, 312, 350] then Event.itemUpdate.code
  else if position ∈ [388, 441, 494, 547] then Event.postFrame.code
  else if position ∈ [600, 605] then Event.bookend.code
  else if position = 349 then 1
  else 0

/-- The sizes of the blocks of the sample game. -/
def sampleOffset (kind : Nat) : Nat :=
  [18, 128, 128, 0, 0, 0, 0, 0, 0, 114, 106, 106, 0, 0, 0, 0, 0, 0, 10, 0].getD kind 0

/-- The sections of the sample game. -/
def sampleSections : GameSections where
  mesg := 0
  start := 0
  pre := 18
  item := 274
  post := 388
  finish := 600
  stop := 610

/-- The events of the sample game stand in their sections. -/
theorem sampleGame_arranged : Arranged (sampleReplay 0) sampleOffset sampleGame sampleSections where
  begins := rfl
  mesg := ⟨fun present => absurd present (by decide), by decide⟩
  start := ⟨fun _ => ⟨by decide, by decide, by decide +kernel, by decide⟩, by decide⟩
  -- Two of the players have events, and the others are passed over.
  pre := by
    refine .present ⟨?_, ?_, ?_, ?_⟩ (.absent rfl (.present ⟨?_, ?_, ?_, ?_⟩ (.absent rfl
      (.absent rfl (.absent rfl (.absent rfl (.absent rfl (.done ?_))))))))
    all_goals decide +kernel
  item := ⟨fun _ => ⟨by decide, by decide +kernel, by decide +kernel, by decide⟩, by decide +kernel⟩
  items := fun _ => by decide +kernel
  post := by
    refine .present ⟨?_, ?_, ?_, ?_⟩ (.absent rfl (.present ⟨?_, ?_, ?_, ?_⟩ (.absent rfl
      (.absent rfl (.absent rfl (.absent rfl (.absent rfl (.done ?_))))))))
    all_goals decide +kernel
  finish := ⟨fun _ => ⟨by decide, by decide +kernel, by decide +kernel, by decide⟩, by decide +kernel⟩

/-- The sample replay is opposed to itself, once it is encoded. -/
theorem sampleReplay_opposed : Opposed (sampleReplay 0) (sampleReplay compretzVersion) where
  version := rfl
  encodes := rfl
  decodes := rfl
  itemSize := by decide +kernel
  sameSize := rfl
  gameLoopStart := rfl

end Game

end SlippCrunch
