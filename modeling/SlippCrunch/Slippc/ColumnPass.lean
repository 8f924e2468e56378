import SlippCrunch.Basis.Sections
import SlippCrunch.Slippc.Columns
import SlippCrunch.Slippc.Items

/-! The pass over all events of a game, whose columns are shuffled block by block. -/

namespace SlippCrunch

open Sections

/-- A table that ends before a column in replays older than a version. -/
def cutBefore (version : SlippiVersion) (maj min rev column : Nat) (widths : List Int) : List Int :=
  if version.maxVersion maj min rev then widths.set column 0 else widths

/-- The tables cut off where the events of a replay's version end. -/
def ColumnWidths.truncateToVersion (version : SlippiVersion) (widths : ColumnWidths) :
    ColumnWidths where
  start := cutBefore version 3 10 0 3 widths.start
  mesg := widths.mesg
  pre := cutBefore version 1 2 0 18 (cutBefore version 1 4 0 19 widths.pre)
  item := cutBefore version 3 2 0 15 (cutBefore version 3 6 0 19 widths.item)
  post := cutBefore version 2 0 0 16 (cutBefore version 2 1 0 26 (cutBefore version 3 5 0 27
    (cutBefore version 3 8 0 32 (cutBefore version 3 11 0 33 widths.post))))
  finish := cutBefore version 3 7 0 2 widths.finish

/-- Whether the encoding of a replay is none or at least of a version. -/
def encodeVersionMin (encodeVer min : Byte) : Bool :=
  encodeVer == 0 || decide (min.toNat ≤ encodeVer.toNat)

/-- The true order of the players: 0, 4, 1, 5, 2, 6, 3, 7. -/
def playerAt (p : Nat) : Nat := 4 * (p % 2) + p / 2

/-- What a pass over the columns of a replay depends on. -/
structure ColumnReplay where
  version : SlippiVersion
  encodeVer : Byte
  /-- The payload size of item updates, from the descriptions of the events. -/
  itemSize : Nat
  /-- The first byte after the game start event. -/
  gameLoopStart : Nat
  /-- What the buffer that is allocated for the block at a position holds at first. -/
  buff : Nat → Memory
  /-- A bound on the event codes that are counted at once. -/
  fuel : Nat

namespace ColumnReplay

variable (replay : ColumnReplay)

/-- The tables of the replay's version. -/
def widths : ColumnWidths := ColumnWidths.newest.truncateToVersion replay.version

/-- The block at the place that a pass has come to is shuffled, and passed. -/
def transpose (memSize : Nat) (colWidths : List Int) : Step Byte := fun place =>
  (transposeEventColumns (replay.buff place.position) place.memory place.position memSize colWidths
    false replay.fuel).map fun (memSize, mainBuf) => ⟨mainBuf, place.position + memSize⟩

/-- The block at the place that a pass has come to is brought back, and passed. -/
def revert (colWidths : List Int) : Step Byte := fun place =>
  (revertEventColumns (replay.buff place.position) place.memory place.position colWidths
    replay.fuel).map fun (memSize, mainBuf) => ⟨mainBuf, place.position + memSize⟩

/-- A step that is taken only where an event begins. -/
def whereEvent (event : Event) (step : Step Byte) : Step Byte := fun place =>
  if place.memory place.position = event.code then step place else some place

/-- The blocks of some players shuffled, those without events being passed over. -/
def shufflePlayers (event : Event) (memSize : Nat → Nat) (colWidths : List Int) :
    List Nat → Step Byte
  | [], place => some place
  | p :: players, place =>
    -- Without another event of the kind the loop ends; a player without events is skipped.
    if place.memory place.position ≠ event.code then some place
    else if memSize (playerAt p) = 0 then shufflePlayers event memSize colWidths players place
    else (replay.transpose (memSize (playerAt p)) colWidths place).bind
      (shufflePlayers event memSize colWidths players)

/-- At most so many blocks of players brought back. -/
def unshufflePlayers (event : Event) (colWidths : List Int) : Nat → Step Byte
  | 0, place => some place
  | left + 1, place =>
    -- The sizes are not known here, so the loop only counts its turns.
    if place.memory place.position ≠ event.code then some place
    else (replay.revert colWidths place).bind (unshufflePlayers event colWidths left)

/-- A memory whose bytes from a position on are replaced. -/
def replaceFrom (mainBuf : Memory) (s : Nat) (tail : Memory) : Memory := fun position =>
  if s ≤ position then tail (position - s) else mainBuf position

/-- The block of items brought together by item, and shuffled. -/
def shuffleItemColumns (memSize : Nat) : Step Byte := fun place => do
  let items : Memory := fun position => place.memory (place.position + position)
  -- Replays of the first encoding keep their items in the order of the events.
  let mainBuf ← if encodeVersionMin replay.encodeVer 2 then
      (shuffleItems replay.itemSize items memSize).map (replaceFrom place.memory place.position)
    else some place.memory
  replay.transpose memSize replay.widths.item ⟨mainBuf, place.position⟩

/-- The block of items brought back, and put back into its order. -/
def unshuffleItemColumns : Step Byte := fun place => do
  let reverted ← replay.revert replay.widths.item place
  -- The size of the block is what the columns were found to take.
  let memSize := reverted.position - place.position
  let items : Memory := fun position => reverted.memory (place.position + position)
  let mainBuf ← if encodeVersionMin replay.encodeVer 2 then
      (unshuffleItems replay.itemSize items memSize).map fun (_, items) =>
        replaceFrom reverted.memory place.position items
    else some reverted.memory
  some ⟨mainBuf, reverted.position⟩

/-- The columns of all events shuffled, from the sizes that the blocks have. -/
def shuffleColumns (offset : Nat → Nat) (wb : Memory) : Option (Place Byte) := do
  let widths := replay.widths
  let place ← whereEvent .splitMsg (replay.transpose (offset 19) widths.mesg)
    ⟨wb, replay.gameLoopStart⟩
  let place ← whereEvent .frameStart (replay.transpose (offset 0) widths.start) place
  -- The offsets hold the sizes of the blocks, two of them for every player.
  let place ← replay.shufflePlayers .preFrame (fun i => offset (1 + i)) widths.pre
    (List.range 8) place
  let place ← whereEvent .itemUpdate (replay.shuffleItemColumns (offset 9)) place
  let place ← replay.shufflePlayers .postFrame (fun i => offset (10 + i)) widths.post
    (List.range 8) place
  whereEvent .bookend (replay.transpose (offset 18) widths.finish) place

/-- The columns of all events brought back. -/
def unshuffleColumns (mainBuf : Memory) : Option (Place Byte) := do
  let widths := replay.widths
  let place ← whereEvent .splitMsg (replay.revert widths.mesg) ⟨mainBuf, replay.gameLoopStart⟩
  let place ← whereEvent .frameStart (replay.revert widths.start) place
  let place ← replay.unshufflePlayers .preFrame widths.pre 8 place
  let place ← whereEvent .itemUpdate replay.unshuffleItemColumns place
  let place ← replay.unshufflePlayers .postFrame widths.post 8 place
  whereEvent .bookend (replay.revert widths.finish) place

end ColumnReplay

end SlippCrunch
