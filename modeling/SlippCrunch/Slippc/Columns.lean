import SlippCrunch.Basis.ByteMemory

/-! The columns of a replay's events, and the transposition that brings equal columns together. -/

namespace SlippCrunch

/-- The first bytes of the events that a game consists of. -/
inductive Event where
  | splitMsg
  | preFrame
  | postFrame
  | frameStart
  | itemUpdate
  | bookend
  deriving DecidableEq, Repr

/-- The byte an event begins with. -/
def Event.code : Event → Byte
  | splitMsg => 0x10
  | preFrame => 0x37
  | postFrame => 0x38
  | frameStart => 0x3A
  | itemUpdate => 0x3B
  | bookend => 0x3C

/-- Every code is the same number as a signed and as an unsigned character. -/
theorem Event.code_small (event : Event) : event.code.toNat < 128 := by
  cases event <;> decide

/-- The column byte widths of every event, negative numbers denoting bit shuffling. -/
structure ColumnWidths where
  start : List Int
  mesg : List Int
  pre : List Int
  item : List Int
  post : List Int
  finish : List Int

namespace ColumnWidths

/-- The widths of the newest version of Slippi. -/
def newest : ColumnWidths where
  start := [1, 4, 4, 4, 0]
  mesg := [1, 512, 2, 1, 1, 0]
  pre := [1, 4, 1, 1, 4, 2, 4, 4, 4, 4, 4, 4, 4, 4, 4, 2, 4, 4, 1, 4, 0]
  item := [1, 4, 2, 1, 4, 4, 4, 4, 4, 2, 4, 1, 1, 1, 1, 1, 1, 1, 1, 1, 0]
  post := [1, 4, 1, 1, 1, 2, 4, 4, 4, 4, 4, 1, 1, 1, 1, 4, 1, 1, 1, 1, 1, 4, 1, 2, 1, 1, 1, 4, 4, 4,
    4, 4, 4, 4, 0]
  finish := [1, 4, 4, 0]

end ColumnWidths

/-- The bytes a column takes of each event, bit shuffling columns being always one byte. -/
def columnSize (width : Int) : Nat := if width > 0 then width.toNat else 1

/-- The columns before the zero that ends a table, each behind its offset in the event. -/
def columnsFrom : Nat → List Int → List (Nat × Int)
  | _, [] => []
  | offset, width :: widths =>
    if width = 0 then [] else (offset, width) :: columnsFrom (offset + columnSize width) widths

/-- The total size of all columns before the zero that ends a table. -/
def structSize : List Int → Nat
  | [] => 0
  | width :: widths => if width = 0 then 0 else columnSize width + structSize widths

section Transposition

variable (shuffle : Bool) (memStart : Memory) (structSize numEntries : Nat)

/-- One entry of a column copied, behind what was copied before. -/
def copyEntry (colOffset colWidth : Nat) (state : Nat × Memory) (e : Nat) : Nat × Memory :=
  let (b, buff) := state
  let mempos := e * structSize + colOffset
  -- Shuffled, the entry goes from its event to the buffer's next place; otherwise it goes back.
  (b + colWidth, if shuffle then buff.copy b memStart mempos colWidth
    else buff.copy mempos memStart b colWidth)

/-- All entries of a column copied. -/
def copyColumn (colOffset colWidth : Nat) (state : Nat × Memory) : Nat × Memory :=
  (List.range numEntries).foldl (copyEntry shuffle memStart structSize colOffset colWidth) state

/-- A place among bits: the bit of a byte, counted from its end, and the number of that byte. -/
structure BitCursor where
  bit : Nat
  b : Nat

/-- The next bit, which may be the first one of the next byte. -/
def BitCursor.next (cursor : BitCursor) : BitCursor :=
  match cursor.bit with
  | 0 => { bit := 7, b := cursor.b + 1 }
  | bit + 1 => { bit, b := cursor.b }

/-- One bit of one entry of a column copied, on top of what the buffer holds. -/
def copyBit (colOffset ib : Nat) (state : BitCursor × Memory) (e : Nat) : BitCursor × Memory :=
  let (cursor, buff) := state
  let mempos := e * structSize + colOffset
  let rByte := memStart (if shuffle then mempos else cursor.b)
  let rBit := rByte >>> (if shuffle then ib else cursor.bit) &&& 0x01
  let wBit := rBit <<< (if shuffle then cursor.bit else ib)
  let place := if shuffle then cursor.b else mempos
  -- The bit is combined with what is there, which a buffer that is not cleared makes visible.
  (cursor.next, Function.update buff place (buff place ^^^ wBit))

/-- All bits of all entries of a column copied, the first bits of all entries before the second ones. -/
def copyBits (colOffset : Nat) (state : Nat × Memory) : Nat × Memory :=
  let (b, buff) := state
  -- The cursor starts at a whole byte and ends at one, as each event adds eight bits.
  let (cursor, buff) := [7, 6, 5, 4, 3, 2, 1, 0].foldl
    (fun state ib =>
      (List.range numEntries).foldl (copyBit shuffle memStart structSize colOffset ib) state)
    ({ bit := 7, b }, buff)
  (cursor.b, buff)

/-- One column copied. -/
def transposeColumn (state : Nat × Memory) (column : Nat × Int) : Nat × Memory :=
  let (colOffset, colWidth) := column
  -- A negative width stands for a column of one byte whose bits are shuffled.
  if colWidth > 0 then
    copyColumn shuffle memStart structSize numEntries colOffset colWidth.toNat state
  else copyBits shuffle memStart structSize numEntries colOffset state

end Transposition

/-- How many bytes from a position on are the event code, absent if the count has no end. -/
def countCodes (memStart : Memory) (evCode : Byte) : Nat → Nat → Option Nat
  | 0, _ => none
  | fuel + 1, memSize =>
    -- The byte is read as a signed character, and the code as an unsigned one.
    if (memStart memSize).toInt = evCode.toNat then countCodes memStart evCode fuel (memSize + 1)
    else some memSize

/--
The columns of a block of events transposed in place, with the block's size.

The new buffer is not initialised, so what it holds is a parameter.
-/
def transposeEventColumns (buff : Memory) (memBuf : Memory) (memOff memSize : Nat)
    (colWidths : List Int) (unshuffle : Bool) (fuel : Nat) : Option (Nat × Memory) :=
  let shuffle := !unshuffle
  let memStart : Memory := fun position => memBuf (memOff + position)
  -- The first byte is an event code whether or not the columns are shuffled.
  let evCode := memStart 0
  let structSize := structSize colWidths
  -- Only a shuffled block tells its size by the codes at its head.
  let size := if unshuffle then (countCodes memStart evCode fuel 0).map (· * structSize)
    else some memSize
  size.map fun memSize =>
    let numEntries := memSize / structSize
    let transposed := (columnsFrom 0 colWidths).foldl
      (transposeColumn shuffle memStart structSize numEntries) (0, buff)
    -- The shuffled columns are copied back over the block.
    (memSize, memBuf.copy memOff transposed.2 0 memSize)

/-- The columns of a block of events brought back, its size being found by its event codes. -/
def revertEventColumns (buff : Memory) (memBuf : Memory) (memOff : Nat) (colWidths : List Int)
    (fuel : Nat) : Option (Nat × Memory) :=
  transposeEventColumns buff memBuf memOff 0 colWidths true fuel

end SlippCrunch
