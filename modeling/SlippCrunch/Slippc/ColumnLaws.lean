import SlippCrunch.Basis.ScatteredBits
import SlippCrunch.Slippc.Columns

/-! Transposed columns come back, up to what their buffers held before. -/

namespace SlippCrunch

open Memory

section Column

variable (memStart buff : Memory) {S : Nat} (n off b : Nat)

/-- One column of bytes brought together: its entries stand behind each other. -/
theorem copyColumn_shuffle (S width : Nat) :
    let done := copyColumn true memStart S n off width (b, buff)
    done.1 = b + n * width ∧
      (∀ e < n, ∀ k < width, done.2 (b + e * width + k) = memStart (e * S + off + k)) ∧
      ∀ position, position < b ∨ b + n * width ≤ position → done.2 position = buff position := by
  -- The entries are copied in the order of their events, so the induction takes the last one off.
  induction n with
  | zero => simp [copyColumn]
  | succ n ih =>
    obtain ⟨place, copied, kept⟩ := ih
    rw [copyColumn, List.range_succ, List.foldl_append, ← copyColumn]
    generalize copyColumn true memStart S n off width (b, buff) = before at place copied kept
    simp only [List.foldl_cons, List.foldl_nil, copyEntry, if_true, place, Nat.succ_mul]
    refine ⟨by omega, ?_, ?_⟩
    · intro e earlier k inside
      -- Only the entry copied last is new; the others end before its place.
      by_cases last : e = n
      · subst last
        rw [copy_inside inside]
      · have gap := entry_end_le (show e < n by omega) width
        rw [copy_outside (.inl (by omega))]
        exact copied e (by omega) k inside
    · intro position outside
      rw [copy_outside (by omega)]
      exact kept position (by omega)

/-- One column of bytes brought back: its entries stand in their events. -/
theorem copyColumn_unshuffle (width : Nat) (fits : off + width ≤ S) :
    let done := copyColumn false memStart S n off width (b, buff)
    done.1 = b + n * width ∧
      (∀ e < n, ∀ k < width, done.2 (e * S + off + k) = memStart (b + e * width + k)) ∧
      ∀ position, (∀ e < n, ∀ k < width, position ≠ e * S + off + k) →
        done.2 position = buff position := by
  -- Here a buffer keeps what stands between the entries, so only their own bytes are given up.
  induction n with
  | zero => simp [copyColumn]
  | succ n ih =>
    obtain ⟨place, copied, kept⟩ := ih
    rw [copyColumn, List.range_succ, List.foldl_append, ← copyColumn]
    generalize copyColumn false memStart S n off width (b, buff) = before at place copied kept
    simp only [List.foldl_cons, List.foldl_nil, copyEntry, Bool.false_eq_true, if_false, place,
      Nat.succ_mul]
    refine ⟨by omega, ?_, ?_⟩
    · intro e earlier k inside
      by_cases last : e = n
      · subst last
        rw [copy_inside inside]
      · -- An earlier event ends before this one begins.
        have gap := entry_end_le (show e < n by omega) S
        rw [copy_outside (.inl (by omega))]
        exact copied e (by omega) k inside
    · intro position outside
      -- A position of no entry is on one side of the last one.
      have before : position < n * S + off ∨ n * S + off + width ≤ position := by
        by_contra within
        exact outside n (by omega) (position - (n * S + off)) (by omega) (by omega)
      rw [copy_outside before]
      exact kept position fun e earlier => outside e (by omega)

end Column

section Bits

/-- Where the bit with a number stands in a column of bits brought together. -/
def colSpot (b q : Nat) : Spot := ⟨b + q / 8, 7 - q % 8⟩

/-- Where the bit with a number stands in the events. -/
def rowSpot (S n off q : Nat) : Spot := ⟨q % n * S + off, 7 - q / n⟩

/-- Different bits of a column brought together stand at different spots. -/
theorem colSpot_ne {b first second : Nat} (before : first < second) :
    colSpot b first ≠ colSpot b second := by
  -- A spot tells its number from its byte and its place.
  intro same
  simp only [colSpot, Spot.mk.injEq] at same
  omega

/-- Different bits of the events stand at different spots. -/
theorem rowSpot_ne {S n off first second : Nat} (nonempty : 0 < S) (before : first < second)
    (inside : second < 8 * n) : rowSpot S n off first ≠ rowSpot S n off second := by
  intro same
  simp only [rowSpot, Spot.mk.injEq] at same
  obtain ⟨entry, place⟩ := same
  -- The address gives the entry, and the place gives the plane: together they are the number.
  have entries : first % n = second % n := Nat.eq_of_mul_eq_mul_right nonempty (by omega)
  have bounded : second / n < 8 := Nat.div_lt_of_lt_mul (by rwa [Nat.mul_comm] at inside)
  have ordered : first / n ≤ second / n := Nat.div_le_div_right before.le
  have planes : first / n = second / n := by omega
  have := Nat.div_add_mod first n
  have := Nat.div_add_mod second n
  rw [entries, planes] at *
  omega

/-- A bit masked out of a byte and moved is that bit combined alone. -/
theorem maskedBit_eq (byte : Byte) (place target : Nat) :
    (byte >>> place &&& 0x01) <<< target =
      (BitVec.ofBool (byte.getLsbD place)).setWidth 8 <<< target := by
  -- A byte that is masked by one is a single bit.
  congr 1
  rw [show (0x01 : Byte) = 1#8 from rfl, BitVec.and_one_eq_setWidth_ofBool_getLsbD,
    BitVec.getLsbD_ushiftRight, Nat.add_zero]

variable {shuffle : Bool} {memStart buff : Memory} {S n off b : Nat}

/-- The cursor of a column that starts at a byte, after so many bits. -/
def cursorAt (b q : Nat) : BitCursor := { bit := 7 - q % 8, b := b + q / 8 }

/-- The cursor moves on by one bit. -/
theorem cursorAt_next (b q : Nat) : (cursorAt b q).next = cursorAt b (q + 1) := by
  -- At the last bit of a byte the cursor starts the next byte at its highest bit.
  by_cases full : q % 8 = 7
  · have last : 7 - q % 8 = 0 := by omega
    simp only [BitCursor.next, cursorAt, last]
    congr 1
    all_goals omega
  · obtain ⟨rest, isRest⟩ : ∃ rest, 7 - q % 8 = rest + 1 := ⟨6 - q % 8, by omega⟩
    simp only [BitCursor.next, cursorAt, isRest]
    congr 1
    all_goals omega

variable (shuffle S n off b)

/-- Where the bit with a number is written. -/
def destSpot (q : Nat) : Spot := if shuffle then colSpot b q else rowSpot S n off q

/-- Where the bit with a number is read. -/
def sourceSpot (q : Nat) : Spot := if shuffle then rowSpot S n off q else colSpot b q

variable {shuffle S n off b}

/-- Copying one bit combines it into its spot and moves the cursor. -/
theorem copyBit_eq {plane e : Nat} (inside : e < n) :
    copyBit shuffle memStart S off (7 - plane) (cursorAt b (plane * n + e), buff) e =
      (cursorAt b (plane * n + (e + 1)),
        buff.flipAt (destSpot shuffle S n off b (plane * n + e))
          (memStart.bitAt (sourceSpot shuffle S n off b (plane * n + e)))) := by
  -- The number of a bit is its plane and then its entry.
  have entry : (plane * n + e) % n = e := by
    rw [Nat.mul_comm, Nat.mul_add_mod, Nat.mod_eq_of_lt inside]
  have ofPlane : (plane * n + e) / n = plane := by
    rw [Nat.mul_comm, Nat.mul_add_div (by omega), Nat.div_eq_of_lt inside, Nat.add_zero]
  simp only [copyBit, cursorAt_next, maskedBit_eq, Nat.add_assoc]
  cases shuffle with
  | true =>
    simp only [destSpot, sourceSpot, if_true, rowSpot, entry, ofPlane]
    rfl
  | false =>
    simp only [destSpot, sourceSpot, Bool.false_eq_true, if_false, rowSpot, entry, ofPlane]
    rfl

/-- Every spot that is written lies in a byte. -/
theorem destSpot_place (q : Nat) : (destSpot shuffle S n off b q).place < 8 := by
  -- Places are counted down from seven.
  cases shuffle with
  | true => exact Nat.lt_succ_of_le (Nat.sub_le 7 (q % 8))
  | false => exact Nat.lt_succ_of_le (Nat.sub_le 7 (q / n))

/-- No spot is written twice. -/
theorem destSpot_ne (nonempty : 0 < S) {first second : Nat} (before : first < second)
    (inside : second < 8 * n) :
    destSpot shuffle S n off b first ≠ destSpot shuffle S n off b second := by
  -- Each direction writes to its own kind of spots.
  cases shuffle with
  | true => exact colSpot_ne before
  | false => exact rowSpot_ne nonempty before inside

/-- The bits of one plane, from some of the entries on, are combined behind those before. -/
theorem copyPlane_scattered (nonempty : 0 < S) {plane : Nat} (isPlane : plane < 8) {start : Memory}
    {entries : Nat} (within : entries ≤ n)
    (scattered : Scattered (destSpot shuffle S n off b)
      (fun q => memStart.bitAt (sourceSpot shuffle S n off b q)) (plane * n) start buff) :
    let done := (List.range entries).foldl (copyBit shuffle memStart S off (7 - plane))
      (cursorAt b (plane * n), buff)
    done.1 = cursorAt b (plane * n + entries) ∧
      Scattered (destSpot shuffle S n off b)
        (fun q => memStart.bitAt (sourceSpot shuffle S n off b q)) (plane * n + entries) start
        done.2 := by
  -- The cursor says how many bits were combined, which makes the next spot the next number.
  induction entries with
  | zero => exact ⟨rfl, scattered⟩
  | succ entries ih =>
    obtain ⟨cursor, soFar⟩ := ih (by omega)
    rw [List.range_succ, List.foldl_append, List.foldl_cons, List.foldl_nil]
    generalize (List.range entries).foldl (copyBit shuffle memStart S off (7 - plane))
      (cursorAt b (plane * n), buff) = done at cursor soFar
    obtain ⟨reached, written⟩ := done
    subst cursor
    rw [copyBit_eq (by omega)]
    -- The next bit is still one of the column, so that its spot is a new one.
    have room : plane * n + entries < 8 * n := by
      have planes : (plane + 1) * n ≤ 8 * n := Nat.mul_le_mul_right n (by omega)
      rw [Nat.succ_mul] at planes
      omega
    exact ⟨rfl, soFar.succ (fun q _ => destSpot_place q) fun q below =>
      destSpot_ne nonempty below room⟩

variable (shuffle memStart buff n off b) in
/-- The bits of a column are combined into their spots, one after the other. -/
theorem copyBits_scattered (nonempty : 0 < S) :
    let done := copyBits shuffle memStart S n off (b, buff)
    done.1 = b + n ∧
      Scattered (destSpot shuffle S n off b)
        (fun q => memStart.bitAt (sourceSpot shuffle S n off b q)) (8 * n) buff done.2 := by
  -- One plane of bits after the other.
  have planes : ∀ count ≤ 8,
      let done := ((List.range count).map (7 - ·)).foldl
        (fun state ib => (List.range n).foldl (copyBit shuffle memStart S off ib) state)
        (cursorAt b 0, buff)
      done.1 = cursorAt b (count * n) ∧
        Scattered (destSpot shuffle S n off b)
          (fun q => memStart.bitAt (sourceSpot shuffle S n off b q)) (count * n) buff done.2 := by
    intro count
    induction count with
    | zero =>
      intro _
      simp only [List.range_zero, List.map_nil, List.foldl_nil, Nat.zero_mul]
      exact ⟨trivial, Scattered.zero _ _ _⟩
    | succ count ih =>
      intro bounded
      obtain ⟨cursor, soFar⟩ := ih (by omega)
      rw [List.range_succ, List.map_append, List.foldl_append]
      generalize ((List.range count).map (7 - ·)).foldl
        (fun state ib => (List.range n).foldl (copyBit shuffle memStart S off ib) state)
        (cursorAt b 0, buff) = done at cursor soFar
      obtain ⟨reached, written⟩ := done
      subst cursor
      rw [Nat.succ_mul]
      exact copyPlane_scattered nonempty (by omega) (le_refl n) soFar
  obtain ⟨cursor, all⟩ := planes 8 (le_refl 8)
  refine ⟨?_, all⟩
  have last := congrArg BitCursor.b cursor
  simp only [cursorAt] at last
  rw [Nat.mul_div_cancel_left n (by omega : 0 < 8)] at last
  exact last

end Bits

section Pass

variable (shuffle : Bool) (S n : Nat)

/-- The positions that a range of an event's bytes is written to. -/
def Within (off size position : Nat) : Prop :=
  if shuffle then n * off ≤ position ∧ position < n * off + n * size
  else position < n * S ∧ off ≤ position % S ∧ position % S < off + size

/-- Where a byte of a column is written. -/
def destByte (off width e k : Nat) : Nat :=
  if shuffle then n * off + e * width + k else e * S + off + k

/-- Where a byte of a column is read. -/
def sourceByte (off width e k : Nat) : Nat :=
  if shuffle then e * S + off + k else n * off + e * width + k

/-- A column was copied, its bits onto what a buffer held before. -/
def ColumnMoved (held source dest : Memory) (column : Nat × Int) : Prop :=
  let (off, width) := column
  if width > 0 then
    ∀ e < n, ∀ k < width.toNat, dest (destByte shuffle S n off width.toNat e k) =
      source (sourceByte shuffle S n off width.toNat e k)
  else
    ∀ q < 8 * n, dest.bitAt (destSpot shuffle S n off (n * off) q) =
      (held.bitAt (destSpot shuffle S n off (n * off) q) ^^
        source.bitAt (sourceSpot shuffle S n off (n * off) q))

variable {shuffle S n} {off : Nat} {width : Int} {held source dest : Memory}

/-- A byte of an event stands inside the block, at its offset in its event. -/
theorem row_inside {e offset : Nat} (earlier : e < n) (inside : offset < S) :
    e * S + offset < n * S ∧ (e * S + offset) % S = offset := by
  -- The event ends where the next one begins, at the latest at the end of the block.
  constructor
  · have gap := entry_end_le earlier S
    omega
  · rw [Nat.mul_comm, Nat.mul_add_mod, Nat.mod_eq_of_lt inside]

/-- A byte of an entry stands inside the column's part of a block. -/
theorem col_inside {e k size : Nat} (earlier : e < n) (inside : k < size) :
    e * size + k < n * size := by
  -- The entry ends where the next one begins, at the latest at the end of the part.
  have gap := entry_end_le earlier size
  omega

variable (shuffle) in
/-- The bytes of a column are written to its own positions. -/
theorem destByte_within {size e k : Nat} (earlier : e < n) (inside : k < size)
    (fits : off + size ≤ S) : Within shuffle S n off size (destByte shuffle S n off size e k) := by
  -- A column is written in one piece, or one piece of it to every event.
  cases shuffle with
  | true =>
    have column := col_inside earlier inside
    simp only [Within, destByte, if_true]
    omega
  | false =>
    obtain ⟨block, event⟩ := row_inside earlier (show off + k < S by omega)
    simp only [Within, destByte, Bool.false_eq_true, if_false, Nat.add_assoc, event]
    omega

variable (shuffle) in
/-- The bits of a column are written to its own positions. -/
theorem destSpot_within {q : Nat} (inside : q < 8 * n) (fits : off + 1 ≤ S) :
    Within shuffle S n off 1 (destSpot shuffle S n off (n * off) q).address := by
  cases shuffle with
  | true =>
    -- Eight bits stand in each byte of the column.
    simp only [Within, destSpot, colSpot, if_true]
    omega
  | false =>
    obtain ⟨block, event⟩ := row_inside (show q % n < n from Nat.mod_lt q (by omega))
      (show off < S by omega)
    simp only [Within, destSpot, rowSpot, Bool.false_eq_true, if_false, event]
    omega

/-- The positions of a range of an event's bytes are those of its two parts. -/
theorem within_add {first second position : Nat} :
    Within shuffle S n off (first + second) position ↔
      Within shuffle S n off first position ∨ Within shuffle S n (off + first) second position := by
  -- Shuffled, a range is a run of bytes; otherwise it is a run of offsets in each event.
  have left := Nat.mul_add n off first
  have right := Nat.mul_add n first second
  cases shuffle with
  | true =>
    simp only [Within, if_true]
    omega
  | false =>
    simp only [Within, Bool.false_eq_true, if_false]
    omega

/-- The positions of two ranges behind each other are apart. -/
theorem within_apart {first second position : Nat} (here : Within shuffle S n off first position) :
    ¬ Within shuffle S n (off + first) second position := by
  -- The second range begins where the first one ends.
  have left := Nat.mul_add n off first
  cases shuffle with
  | true =>
    simp only [Within, if_true] at here ⊢
    omega
  | false =>
    simp only [Within, Bool.false_eq_true, if_false] at here ⊢
    omega

/-- Every column lies between the offsets of its table. -/
theorem columnsFrom_bounds {widths : List Int} {column : Nat × Int}
    (member : column ∈ columnsFrom off widths) :
    off ≤ column.1 ∧ column.1 + columnSize column.2 ≤ off + structSize widths := by
  induction widths generalizing off with
  | nil => exact absurd member List.not_mem_nil
  | cons width widths ih =>
    -- A zero ends the table, also when widths follow it.
    by_cases ends : width = 0
    · rw [columnsFrom, if_pos ends] at member
      exact absurd member List.not_mem_nil
    · rw [columnsFrom, if_neg ends] at member
      rw [structSize, if_neg ends]
      rcases List.mem_cons.mp member with rfl | later
      · simp only
        omega
      · have := ih later
        omega

/-- The positions of a column are among those of its table. -/
theorem Within.of_column {widths : List Int} {column : Nat × Int} {position : Nat}
    (member : column ∈ columnsFrom off widths)
    (here : Within shuffle S n column.1 (columnSize column.2) position) :
    Within shuffle S n off (structSize widths) position := by
  obtain ⟨atLeast, atMost⟩ := columnsFrom_bounds member
  -- The bounds in an event become bounds in the block, where every offset counts for each event.
  have lower := Nat.mul_le_mul_left n atLeast
  have upper := Nat.mul_le_mul_left n atMost
  rw [Nat.mul_add, Nat.mul_add] at upper
  cases shuffle with
  | true =>
    simp only [Within, if_true] at here ⊢
    omega
  | false =>
    simp only [Within, Bool.false_eq_true, if_false] at here ⊢
    omega

/-- That a column was copied depends on its own positions only. -/
theorem ColumnMoved.congr {held' dest' : Memory} (fits : off + columnSize width ≤ S)
    (moved : ColumnMoved shuffle S n held source dest (off, width))
    (sameHeld : ∀ position, Within shuffle S n off (columnSize width) position →
      held' position = held position)
    (sameDest : ∀ position, Within shuffle S n off (columnSize width) position →
      dest' position = dest position) :
    ColumnMoved shuffle S n held' source dest' (off, width) := by
  -- What is said of a column is said of its own positions.
  simp only [ColumnMoved] at moved ⊢
  by_cases positive : width > 0
  · -- A column of bytes says nothing about what the buffer held.
    simp only [columnSize, if_pos positive] at moved sameDest fits ⊢
    intro e earlier k inside
    rw [sameDest _ (destByte_within shuffle earlier inside fits)]
    exact moved e earlier k inside
  · -- Bits were combined with those that the buffer held, at the same spots.
    simp only [columnSize, if_neg positive] at moved sameHeld sameDest fits ⊢
    intro q inside
    have here := destSpot_within shuffle inside fits
    have same := moved q inside
    simp only [bitAt] at same ⊢
    rw [sameDest _ here, sameHeld _ here]
    exact same

/-- That a column was brought back depends on the bytes of its block only. -/
theorem ColumnMoved.source_congr {source' : Memory} {column : Nat × Int}
    (fits : column.1 + columnSize column.2 ≤ S)
    (moved : ColumnMoved false S n held source dest column)
    (same : ∀ position < n * S, source position = source' position) :
    ColumnMoved false S n held source' dest column := by
  obtain ⟨off, width⟩ := column
  have columns := Nat.mul_le_mul_left n fits
  rw [Nat.mul_add] at columns
  simp only [ColumnMoved] at moved columns ⊢
  by_cases positive : width > 0
  · simp only [columnSize, if_pos positive] at moved columns ⊢
    intro e earlier k inside
    -- The bytes that are read are those of the column, which ends inside the block.
    have column := col_inside earlier inside
    rw [← same _ (by simp only [sourceByte, Bool.false_eq_true, if_false]; omega)]
    exact moved e earlier k inside
  · simp only [columnSize, if_neg positive] at moved columns ⊢
    intro q inside
    have here : (sourceSpot false S n off (n * off) q).address < n * S := by
      simp only [sourceSpot, colSpot, Bool.false_eq_true, if_false]
      omega
    have bit := moved q inside
    simp only [bitAt] at bit ⊢
    rw [← same _ here]
    exact bit

variable (shuffle n held source) in
/-- One column is copied, and nothing else is written. -/
theorem transposeColumn_moves (nonempty : 0 < S) (fits : off + columnSize width ≤ S) :
    let done := transposeColumn shuffle source S n (n * off, held) (off, width)
    done.1 = n * (off + columnSize width) ∧
      ColumnMoved shuffle S n held source done.2 (off, width) ∧
      ∀ position, ¬ Within shuffle S n off (columnSize width) position →
        done.2 position = held position := by
  simp only [transposeColumn, ColumnMoved]
  -- A positive width is copied by bytes and a negative one by bits.
  by_cases positive : width > 0
  · simp only [columnSize, if_pos positive] at fits ⊢
    cases shuffle with
    | true =>
      -- The positions that are kept are stated in two ways; the columns ask for those of an event.
      obtain ⟨place, copied, kept⟩ := copyColumn_shuffle source held n off (n * off) S
        width.toNat
      refine ⟨by rw [place, Nat.mul_add], copied, fun position outside => kept position ?_⟩
      simp only [Within, if_true] at outside
      omega
    | false =>
      obtain ⟨place, copied, kept⟩ := copyColumn_unshuffle source held n off (n * off)
        width.toNat fits
      refine ⟨by rw [place, Nat.mul_add], copied, fun position outside => kept position ?_⟩
      intro e earlier k inside here
      exact outside (here ▸ destByte_within false earlier inside fits)
  · simp only [columnSize, if_neg positive] at fits ⊢
    obtain ⟨place, scattered⟩ := copyBits_scattered shuffle source held n off (n * off) nonempty
    refine ⟨by rw [place, Nat.mul_add, Nat.mul_one], scattered.hit, fun position outside => ?_⟩
    apply scattered.unchanged
    intro q inside here
    exact outside (here ▸ destSpot_within shuffle inside fits)

variable (shuffle n off held source) in
/-- All columns are copied, each onto what the buffer held before, and nothing else is written. -/
theorem transposeColumns_moves (nonempty : 0 < S) {widths : List Int}
    (fits : off + structSize widths ≤ S) :
    let done := (columnsFrom off widths).foldl (transposeColumn shuffle source S n) (n * off, held)
    (∀ column ∈ columnsFrom off widths, ColumnMoved shuffle S n held source done.2 column) ∧
      ∀ position, ¬ Within shuffle S n off (structSize widths) position →
        done.2 position = held position := by
  -- The buffer goes from column to column, so that the induction is for all that it may hold.
  induction widths generalizing off held with
  | nil => exact ⟨fun _ none => absurd none List.not_mem_nil, fun _ _ => rfl⟩
  | cons width widths ih =>
    by_cases ends : width = 0
    · simp only [columnsFrom, structSize, if_pos ends, List.foldl_nil]
      exact ⟨fun _ none => absurd none List.not_mem_nil, fun _ _ => trivial⟩
    · simp only [columnsFrom, structSize, if_neg ends, List.foldl_cons] at fits ⊢
      obtain ⟨place, moved, kept⟩ := transposeColumn_moves shuffle n held source nonempty
        (show off + columnSize width ≤ S by omega)
      generalize transposeColumn shuffle source S n (n * off, held) (off, width) = first at place moved kept
      obtain ⟨b, buff⟩ := first
      subst place
      obtain ⟨others, rest⟩ := ih (off + columnSize width) buff (by omega)
      constructor
      · intro column member
        rcases List.mem_cons.mp member with rfl | later
        · -- The columns behind the first one do not touch its positions.
          apply moved.congr (by omega) (fun _ _ => rfl)
          intro position here
          exact rest position (within_apart here)
        · -- A later column finds in the buffer what was held before the first one was copied.
          have bounds := columnsFrom_bounds later
          apply (others column later).congr (by omega) (fun position here => ?_) (fun _ _ => rfl)
          exact (kept position fun own => within_apart own (here.of_column later)).symm
      · intro position outside
        rw [within_add, not_or] at outside
        rw [rest position outside.2]
        exact kept position outside.1

end Pass

end SlippCrunch
