import SlippCrunch.Slippc.ColumnLaws

/-! A block of events whose columns were shuffled comes back exactly if its size can be found again. -/

namespace SlippCrunch

open Memory

section Block

variable {n off : Nat} {widths : List Int} {rows cols rows' held held' : Memory}

variable (off widths) in
/-- Every byte of an event lies in one of its columns. -/
theorem exists_column {offset : Nat} (atLeast : off ≤ offset)
    (below : offset < off + structSize widths) :
    ∃ column ∈ columnsFrom off widths, column.1 ≤ offset ∧
      offset < column.1 + columnSize column.2 := by
  induction widths generalizing off with
  | nil =>
    rw [structSize] at below
    omega
  | cons width widths ih =>
    by_cases ends : width = 0
    · rw [structSize, if_pos ends] at below
      omega
    · rw [structSize, if_neg ends] at below
      rw [columnsFrom, if_neg ends]
      -- The byte is in the first column, or behind it and in the rest of the table.
      by_cases first : offset < off + columnSize width
      · exact ⟨_, .head _, atLeast, first⟩
      · obtain ⟨column, member, inside⟩ := ih (off + columnSize width) (by omega) (by omega)
        exact ⟨column, .tail _ member, inside⟩

/-- What two buffers held before agrees wherever bits are combined into it. -/
def Cancels (widths : List Int) (n : Nat) (held held' : Memory) : Prop :=
  ∀ column ∈ columnsFrom 0 widths, ¬ column.2 > 0 → ∀ q < 8 * n,
    held.bitAt (colSpot (n * column.1) q) = held'.bitAt (rowSpot (structSize widths) n column.1 q)

/-- A column of a table brought back depends on the bytes of its block only. -/
theorem source_congr_of_member {column : Nat × Int} {source source' dest : Memory}
    (member : column ∈ columnsFrom 0 widths)
    (moved : ColumnMoved false (structSize widths) n held source dest column)
    (same : ∀ position < n * structSize widths, source position = source' position) :
    ColumnMoved false (structSize widths) n held source' dest column := by
  -- A column of the table lies inside of its events.
  have bounds := columnsFrom_bounds member
  exact moved.source_congr (by omega) same

/-- Without bit columns nothing has to cancel. -/
theorem cancels_of_positive (positive : ∀ column ∈ columnsFrom 0 widths, column.2 > 0) :
    Cancels widths n held held' :=
  fun column member bits => absurd (positive column member) bits

/-- A byte of a column that was moved forth and back is what it was. -/
theorem byte_back {S : Nat} {width : Int} (positive : width > 0)
    (forth : ColumnMoved true S n held rows cols (off, width))
    (back : ColumnMoved false S n held' cols rows' (off, width)) {e k : Nat} (earlier : e < n)
    (inside : k < width.toNat) : rows' (e * S + off + k) = rows (e * S + off + k) := by
  simp only [ColumnMoved, if_pos positive] at forth back
  -- The entry is read from where it was written to.
  have moved := forth e earlier k inside
  have restored := back e earlier k inside
  simp only [destByte, sourceByte, if_true, Bool.false_eq_true, if_false] at moved restored
  rw [restored, moved]

/-- A bit of a column that was moved forth and back went through both buffers. -/
theorem bit_back {S : Nat} {width : Int} (bits : ¬ width > 0)
    (forth : ColumnMoved true S n held rows cols (off, width))
    (back : ColumnMoved false S n held' cols rows' (off, width)) {q : Nat} (inside : q < 8 * n) :
    rows'.bitAt (rowSpot S n off q) = (held'.bitAt (rowSpot S n off q) ^^
      (held.bitAt (colSpot (n * off) q) ^^ rows.bitAt (rowSpot S n off q))) := by
  simp only [ColumnMoved, if_neg bits] at forth back
  -- Both ways the bit is combined with the one that the buffer held.
  have moved := forth q inside
  have restored := back q inside
  simp only [destSpot, sourceSpot, if_true, Bool.false_eq_true, if_false] at moved restored
  rw [restored, moved]

variable (off) in
/-- Every bit of a column has a number. -/
theorem exists_rowSpot (S : Nat) {e place : Nat} (earlier : e < n) (inByte : place < 8) :
    ∃ q < 8 * n, rowSpot S n off q = ⟨e * S + off, place⟩ := by
  -- The number is given by the plane of the bit and by its entry.
  refine ⟨(7 - place) * n + e, ?_, ?_⟩
  · have planes : (7 - place + 1) * n ≤ 8 * n := Nat.mul_le_mul_right n (by omega)
    rw [Nat.succ_mul] at planes
    omega
  · rw [rowSpot, Nat.mul_comm (7 - place), Nat.mul_add_mod, Nat.mod_eq_of_lt earlier,
      Nat.mul_add_div (by omega), Nat.div_eq_of_lt earlier]
    congr 1
    omega

/-- Columns moved forth and back are the same again exactly if the buffers cancel. -/
theorem moved_back_iff
    (forth : ∀ column ∈ columnsFrom 0 widths,
      ColumnMoved true (structSize widths) n held rows cols column)
    (back : ∀ column ∈ columnsFrom 0 widths,
      ColumnMoved false (structSize widths) n held' cols rows' column) :
    (∀ position < n * structSize widths, rows' position = rows position) ↔
      Cancels widths n held held' := by
  constructor
  · rintro same ⟨o, width⟩ member bits q inside
    obtain ⟨_, atMost⟩ := columnsFrom_bounds member
    simp only [columnSize, if_neg bits, Nat.zero_add] at atMost
    have block := (row_inside (show q % n < n from Nat.mod_lt q (by omega))
      (show o < structSize widths from atMost)).1
    have bit := bit_back bits (forth _ member) (back _ member) inside
    have restored : rows'.bitAt (rowSpot (structSize widths) n o q) =
        rows.bitAt (rowSpot (structSize widths) n o q) := by
      simp only [bitAt, rowSpot, same _ block]
    -- What both buffers add to a bit that comes back must be the same.
    rw [restored] at bit
    show held.bitAt (colSpot (n * o) q) = held'.bitAt (rowSpot (structSize widths) n o q)
    generalize rows.bitAt (rowSpot (structSize widths) n o q) = plain at bit
    generalize held.bitAt (colSpot (n * o) q) = first at bit ⊢
    generalize held'.bitAt (rowSpot (structSize widths) n o q) = second at bit ⊢
    revert plain first second
    decide
  · intro cancels position inside
    have nonempty : 0 < structSize widths := Nat.pos_of_ne_zero fun none => by
      rw [none] at inside
      omega
    -- A position is a byte of an event, and that byte belongs to some column.
    have split := Nat.div_add_mod' position (structSize widths)
    have earlier : position / structSize widths < n :=
      Nat.div_lt_of_lt_mul (by rwa [Nat.mul_comm] at inside)
    have offset := Nat.mod_lt position nonempty
    generalize position / structSize widths = e at split earlier
    generalize position % structSize widths = r at split offset
    obtain ⟨⟨o, width⟩, member, atLeast, below⟩ :=
      exists_column 0 widths (Nat.zero_le r) (by omega)
    simp only at atLeast below
    by_cases positive : width > 0
    · rw [columnSize, if_pos positive] at below
      have here : e * structSize widths + o + (r - o) = position := by omega
      have restored := byte_back positive (forth _ member) (back _ member) earlier
        (show r - o < width.toNat by omega)
      rwa [here] at restored
    · rw [columnSize, if_neg positive] at below
      obtain rfl : r = o := by omega
      apply eq_of_bitAt
      intro place inByte
      obtain ⟨q, inColumn, here⟩ :=
        exists_rowSpot r (structSize widths) earlier inByte
      have restored := bit_back positive (forth _ member) (back _ member) inColumn
      have cancel := cancels _ member positive q inColumn
      simp only at cancel
      rw [here, split] at restored cancel
      rw [restored, cancel, ← Bool.xor_assoc, Bool.xor_self, Bool.false_xor]

end Block

/-- A signed and an unsigned character are equal when they are one byte below the sign bit. -/
theorem toInt_eq_toNat_iff {byte code : Byte} :
    byte.toInt = code.toNat ↔ byte = code ∧ code.toNat < 128 := by
  have byteSmall := byte.isLt
  -- From the sign bit on the signed character is negative.
  rw [BitVec.toInt_eq_toNat_cond, ← BitVec.toNat_inj]
  split
  · omega
  · omega

/-- No byte counts as a code that has the sign bit. -/
theorem countCodes_signed {memStart : Memory} {evCode : Byte} {fuel : Nat} (some : 0 < fuel)
    (signed : ¬ evCode.toNat < 128) : countCodes memStart evCode fuel 0 = .some 0 := by
  -- Extended with its sign no byte is that number, so the first one ends the count.
  obtain ⟨rest, rfl⟩ := Nat.exists_eq_add_of_lt some
  rw [Nat.zero_add, countCodes, if_neg fun same => signed (toInt_eq_toNat_iff.mp same).2]

/-- The count of codes is the number of bytes before the first that is no code. -/
theorem countCodes_eq_some_iff {memStart : Memory} {evCode : Byte} (plain : evCode.toNat < 128)
    {fuel size count : Nat} :
    countCodes memStart evCode fuel size = some count ↔
      size ≤ count ∧ count < size + fuel ∧ memStart count ≠ evCode ∧
        ∀ position, size ≤ position → position < count → memStart position = evCode := by
  induction fuel generalizing size with
  | zero =>
    simp only [countCodes, reduceCtorEq, false_iff]
    omega
  | succ fuel ih =>
    have compared : (memStart size).toInt = evCode.toNat ↔ memStart size = evCode :=
      toInt_eq_toNat_iff.trans (and_iff_left plain)
    rw [countCodes]
    -- The count goes on over a code and stops at the first byte that is none.
    by_cases isCode : memStart size = evCode
    · rw [if_pos (compared.mpr isCode), ih]
      constructor
      · rintro ⟨atLeast, below, differs, codes⟩
        refine ⟨by omega, by omega, differs, fun position lower upper => ?_⟩
        rcases Nat.eq_or_lt_of_le lower with rfl | beyond
        · exact isCode
        · exact codes position beyond upper
      · rintro ⟨atLeast, below, differs, codes⟩
        have beyond : size ≠ count := fun same => differs (same ▸ isCode)
        exact ⟨by omega, by omega, differs, fun position lower => codes position (by omega)⟩
    · rw [if_neg fun same => isCode (compared.mp same), Option.some.injEq]
      constructor
      · rintro rfl
        exact ⟨le_refl _, by omega, isCode, fun position lower upper => by omega⟩
      · rintro ⟨atLeast, below, differs, codes⟩
        -- A larger count would have a code where there is none.
        by_contra other
        exact isCode (codes size (le_refl _) (by omega))

section Pass

variable {memBuf held held' : Memory} {memOff n fuel : Nat} {widths : List Int}

variable (memBuf held memOff n fuel) in
/-- A block is shuffled column by column. -/
theorem transposeEventColumns_shuffle (nonempty : 0 < structSize widths) :
    ∃ cols, transposeEventColumns held memBuf memOff (n * structSize widths) widths false fuel =
        some (n * structSize widths, memBuf.copy memOff cols 0 (n * structSize widths)) ∧
      ∀ column ∈ columnsFrom 0 widths, ColumnMoved true (structSize widths) n held
        (fun position => memBuf (memOff + position)) cols column := by
  have entries : n * structSize widths / structSize widths = n := Nat.mul_div_cancel n nonempty
  -- The columns start at the buffer of the block and fill the whole of each event.
  have moves := transposeColumns_moves true n 0 held (fun position => memBuf (memOff + position))
    nonempty (show 0 + structSize widths ≤ structSize widths by omega)
  rw [Nat.mul_zero] at moves
  refine ⟨_, ?_, moves.1⟩
  simp only [transposeEventColumns, Bool.false_eq_true, if_false, Option.map_some, entries,
    Bool.not_false]

variable (held) in
/-- A block whose codes can be counted is brought back column by column. -/
theorem revertEventColumns_unshuffle (nonempty : 0 < structSize widths)
    (counted : countCodes (fun position => memBuf (memOff + position)) (memBuf memOff) fuel 0 =
      some n) :
    ∃ rows, revertEventColumns held memBuf memOff widths fuel =
        some (n * structSize widths, memBuf.copy memOff rows 0 (n * structSize widths)) ∧
      ∀ column ∈ columnsFrom 0 widths, ColumnMoved false (structSize widths) n held
        (fun position => memBuf (memOff + position)) rows column := by
  have entries : n * structSize widths / structSize widths = n := Nat.mul_div_cancel n nonempty
  -- The number of events is the count of their codes.
  have moves := transposeColumns_moves false n 0 held (fun position => memBuf (memOff + position))
    nonempty (show 0 + structSize widths ≤ structSize widths by omega)
  rw [Nat.mul_zero] at moves
  refine ⟨_, ?_, moves.1⟩
  simp only [revertEventColumns, transposeEventColumns, if_true, Bool.not_true, Nat.add_zero,
    counted, Option.map_some, entries]

/-- The first column of a shuffled block holds the codes, if it is the column of the codes. -/
theorem shuffled_code {rows cols : Memory} {rest : List Int} {S : Nat}
    (moved : ∀ column ∈ columnsFrom 0 (1 :: rest), ColumnMoved true S n held rows cols column)
    {e : Nat} (earlier : e < n) : cols e = rows (e * S) := by
  -- The column of the codes is one of the columns, and one byte wide.
  have column := moved (0, 1) (List.mem_cons_self ..)
  have one : (1 : Int) > 0 := by decide
  simp only [ColumnMoved, if_pos one] at column
  have byte := column e earlier 0 (by decide)
  simpa [destByte, sourceByte] using byte

/-- The byte behind the codes of a shuffled block is the byte behind the code of its first event. -/
theorem shuffled_next {rows cols : Memory} {width : Int} {rest : List Int} {S : Nat}
    (positive : width > 0) (some : 0 < n)
    (moved : ∀ column ∈ columnsFrom 0 (1 :: width :: rest),
      ColumnMoved true S n held rows cols column) : cols n = rows 1 := by
  -- The second column starts where the codes end, with the second byte of the first event.
  have second : ((1 : Nat), width) ∈ columnsFrom 0 (1 :: width :: rest) := by
    simp [columnsFrom, columnSize, positive.ne']
  have column := moved _ second
  simp only [ColumnMoved, if_pos positive] at column
  have byte := column 0 some 0 (by omega)
  simpa [destByte, sourceByte] using byte

/-- A block copied over a block of a copy of its memory leaves the memory as it is if it is the same. -/
theorem copy_copy_eq_iff (cols : Memory) {rows : Memory} {length : Nat} :
    (memBuf.copy memOff cols 0 length).copy memOff rows 0 length = memBuf ↔
      ∀ position < length, rows position = memBuf (memOff + position) := by
  constructor
  · intro same position inside
    have byte := congrFun same (memOff + position)
    rwa [copy_inside inside, Nat.zero_add] at byte
  · intro same
    funext position
    -- Outside the block neither copy writes.
    by_cases inside : memOff ≤ position ∧ position < memOff + length
    · obtain ⟨offset, rfl⟩ := Nat.exists_eq_add_of_le inside.1
      have small : offset < length := by omega
      rw [copy_inside small, Nat.zero_add]
      exact same offset small
    · rw [copy_outside (by omega), copy_outside (by omega)]

/-- A table that begins with the column of the codes has a size. -/
theorem structSize_pos (rest : List Int) : 0 < structSize (1 :: rest) := by
  -- The column of the codes alone has one byte.
  have one : (1 : Int) ≠ 0 := by decide
  rw [structSize, if_neg one]
  show 0 < 1 + structSize rest
  omega

/-- The size of a block that was brought back is the number of its codes times that of an event. -/
theorem revertEventColumns_size {memSize : Nat} {restored : Memory}
    (reverted : revertEventColumns held memBuf memOff widths fuel = some (memSize, restored)) :
    ∃ count, countCodes (fun position => memBuf (memOff + position)) (memBuf memOff) fuel 0 =
        some count ∧ memSize = count * structSize widths := by
  -- The size is what the counting gives, before any column is moved.
  simp only [revertEventColumns, transposeEventColumns, if_true, Nat.add_zero, Option.map_map,
    Option.map_eq_some_iff, Function.comp] at reverted
  obtain ⟨count, counted, same⟩ := reverted
  exact ⟨count, counted, (congrArg Prod.fst same).symm⟩

/-- What the shuffled block is, and when it comes back. -/
theorem shuffled_block {code : Byte} {rest : List Int} (some : 0 < n)
    (codes : ∀ e < n, memBuf (memOff + e * structSize (1 :: rest)) = code) (enough : n < fuel) :
    ∃ cols, transposeEventColumns held memBuf memOff (n * structSize (1 :: rest)) (1 :: rest) false
        fuel = Option.some (n * structSize (1 :: rest),
          memBuf.copy memOff cols 0 (n * structSize (1 :: rest))) ∧
      (∀ column ∈ columnsFrom 0 (1 :: rest), ColumnMoved true (structSize (1 :: rest)) n held
        (fun position => memBuf (memOff + position)) cols column) ∧
      (revertEventColumns held' (memBuf.copy memOff cols 0 (n * structSize (1 :: rest))) memOff
          (1 :: rest) fuel = Option.some (n * structSize (1 :: rest), memBuf) ↔
        code.toNat < 128 ∧
          memBuf.copy memOff cols 0 (n * structSize (1 :: rest)) (memOff + n) ≠ code ∧
          Cancels (1 :: rest) n held held') := by
  have nonempty : 0 < structSize (1 :: rest) := structSize_pos rest
  obtain ⟨cols, shuffled, forth⟩ := transposeEventColumns_shuffle memBuf held memOff n fuel
    nonempty
  refine ⟨cols, shuffled, forth, ?_⟩
  generalize isCoded : memBuf.copy memOff cols 0 (n * structSize (1 :: rest)) = coded
  -- The bytes of the block are those of the buffer, beginning with the codes.
  have block : ∀ position < n * structSize (1 :: rest), coded (memOff + position) = cols position := by
    intro position inside
    rw [← isCoded, copy_inside inside, Nat.zero_add]
  have isCode : ∀ e < n, coded (memOff + e) = code := by
    intro e earlier
    have room : n ≤ n * structSize (1 :: rest) := Nat.le_mul_of_pos_right n nonempty
    rw [block e (by omega), shuffled_code forth earlier]
    exact codes e earlier
  have first : coded memOff = code := isCode 0 some
  constructor
  · intro reverted
    -- The size that comes back gives the count, and the count gives the byte that ends it.
    obtain ⟨count, counted, size⟩ := revertEventColumns_size reverted
    obtain rfl : n = count := Nat.eq_of_mul_eq_mul_right nonempty size
    have plain : code.toNat < 128 := by
      -- Otherwise nothing is counted at all.
      by_contra signed
      rw [countCodes_signed (by omega) (first ▸ signed), Option.some.injEq] at counted
      omega
    refine ⟨plain, first ▸ ((countCodes_eq_some_iff (first ▸ plain)).mp counted).2.2.1, ?_⟩
    obtain ⟨rows, again, back⟩ :=
      revertEventColumns_unshuffle held' nonempty counted
    rw [again] at reverted
    rw [← moved_back_iff forth fun column member => source_congr_of_member member (back column member) block,
      ← copy_copy_eq_iff cols, isCoded]
    exact congrArg Prod.snd (Option.some.inj reverted)
  · rintro ⟨plain, differs, cancels⟩
    have counted : countCodes (fun position => coded (memOff + position)) (coded memOff) fuel 0 =
        Option.some n :=
      (countCodes_eq_some_iff (first ▸ plain)).mpr ⟨Nat.zero_le n, by omega, first ▸ differs,
        fun position _ earlier => (isCode position earlier).trans first.symm⟩
    obtain ⟨rows, reverted, back⟩ :=
      revertEventColumns_unshuffle held' nonempty counted
    rw [← moved_back_iff forth fun column member => source_congr_of_member member (back column member) block,
      ← copy_copy_eq_iff cols, isCoded] at cancels
    rw [reverted, cancels]

/--
A shuffled block comes back exactly if its size is found again and its buffers cancel.

The codes are counted only below the sign bit, and up to a byte behind them that is no code.
A column of bits is combined into a buffer that is not cleared, so it needs the same bits in both.
-/
theorem revertEventColumns_iff {code : Byte} {rest : List Int} {coded : Memory} (some : 0 < n)
    (codes : ∀ e < n, memBuf (memOff + e * structSize (1 :: rest)) = code) (enough : n < fuel)
    (shuffled : transposeEventColumns held memBuf memOff (n * structSize (1 :: rest)) (1 :: rest)
      false fuel = Option.some (n * structSize (1 :: rest), coded)) :
    revertEventColumns held' coded memOff (1 :: rest) fuel =
        Option.some (n * structSize (1 :: rest), memBuf) ↔
      code.toNat < 128 ∧ coded (memOff + n) ≠ code ∧ Cancels (1 :: rest) n held held' := by
  -- Shuffling has one result, so the columns are those that the block was shuffled to.
  obtain ⟨cols, isShuffled, _, restored⟩ := shuffled_block some codes enough
  rw [isShuffled, Option.some.injEq, Prod.mk.injEq] at shuffled
  rw [← shuffled.2]
  exact restored

/-- Two events of the code, one byte and one byte whose bits are shuffled. -/
def sampleBlock : Memory := fun position => if position % 3 = 0 then 0x37 else 1

/-- The sample block shuffled through a cleared buffer. -/
def sampleShuffled : Memory :=
  ((transposeEventColumns (fun _ => 0) sampleBlock 0 6 [1, 1, -1] false 8).map Prod.snd).getD sampleBlock

/-- A column of bits is lost if the second buffer was not cleared. -/
theorem bitColumn_lost : ¬ revertEventColumns (fun _ => 0x80) sampleShuffled 0 [1, 1, -1] 8 =
    Option.some (6, sampleBlock) := by
  -- If the block came back, the bits of the second buffer would have to be clear.
  intro back
  have shuffled : transposeEventColumns (fun _ => 0) sampleBlock 0 (2 * structSize [1, 1, -1])
      [1, 1, -1] false 8 = Option.some (2 * structSize [1, 1, -1], sampleShuffled) := rfl
  have codes : ∀ e < 2, sampleBlock (0 + e * structSize [1, 1, -1]) = 0x37 := by decide
  have cancels := ((revertEventColumns_iff (by decide) codes (by decide) shuffled).mp back).2.2
  exact absurd (cancels (2, -1) (by decide) (by decide) 0 (by decide)) (by decide)

end Pass

end SlippCrunch
