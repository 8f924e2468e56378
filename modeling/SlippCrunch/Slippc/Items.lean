import SlippCrunch.Slippc.Util

/-! The item events of a replay, grouped by item and put back into their order. -/

namespace SlippCrunch

/-- The offset of the item id in an item event. -/
def itemIdOffset : Nat := 0x22

/-- How many items are tracked at most. -/
def maxItemsC : Nat := 2048

/-- The frame modulus combined into the first byte of an item id. -/
def encodeFrameIntoItemId (itemId : Word) (frame : Int) : Word :=
  itemId ^^^ (BitVec.ofInt 32 ((frame + 256).tmod 256) <<< 24)

/-- The first byte of an item id. -/
def getFrameModFromItemId (itemId : Word) : Word := itemId >>> 24

/-- The last two bytes of an item id replaced by a waiting time. -/
def encodeWaitIntoItemId (itemId : Word) (wait : Nat) : Word :=
  (itemId &&& 0xFFFF0000) ^^^ BitVec.ofNat 32 ((wait + 65536) % 65536)

/-- The waiting time in the last two bytes. -/
def getWaitFromItemId (itemId : Word) : Nat := itemId.toNat % 65536

/-- The number of skipped ids combined into the second byte. -/
def encodeNewItemIntoId (itemId : Word) (skip : Nat) : Word :=
  itemId ^^^ (BitVec.ofNat 32 skip <<< 16)

/-- The number of skipped ids in the second byte. -/
def getIsNewItem (itemId : Word) : Nat := (itemId <<< 8 >>> 24).toNat

/-- The bytes of one event, from its code on. -/
abbrev Payload := Memory

/-- The payload of an event in a block. -/
def payloadAt (iblock : Memory) (ps i : Nat) : Payload := fun offset => iblock (i * ps + offset)

/-- The payloads of each item, as far as the events of a block were binned. -/
structure ItemBins where
  /-- The payloads of an item, their number being the item's count. -/
  ibuffs : Nat → List Payload
  /-- The last event of an item. -/
  ilast : Nat → Nat
  firstItem : Bool
  wait : Nat
  evTotal : Nat
  curId : Nat
  maxItem : Nat
  /-- The block, with the item ids that were replaced. -/
  iblock : Memory

namespace ItemBins

/-- Nothing is binned yet. -/
def start (iblock : Memory) : ItemBins where
  ibuffs := fun _ => []
  ilast := fun _ => 0
  firstItem := true
  wait := 0
  evTotal := 0
  curId := 0
  maxItem := 0
  iblock := iblock

variable (bins : ItemBins)

/-- How many payloads an item has. -/
def icount (n : Nat) : Nat := (bins.ibuffs n).length

/-- The payload at a position copied to an item, absent beyond the items that are tracked. -/
def store (ps i uid : Nat) : Option ItemBins :=
  if uid < maxItemsC then
    some { bins with
      ibuffs := Function.update bins.ibuffs uid (bins.ibuffs uid ++ [payloadAt bins.iblock ps i])
      maxItem := if uid ≥ bins.maxItem then uid + 1 else bins.maxItem }
  else none

/-- The distance to the next lower item that was met, absent if there is none. -/
def findSkip (uid : Nat) : Nat → Nat → Option Nat
  | 0, _ => none
  | left + 1, skip => if bins.icount (uid - skip) = 0 then findSkip uid left (skip + 1) else some skip

/-- One event counted and binned by its item. -/
def shuffleStep (ps : Nat) (bins : ItemBins) (i : Nat) : Option ItemBins := do
  let ouid := readBE4U bins.iblock (i * ps + itemIdOffset)
  let uid := (encodeFrameIntoItemId ouid (getFrameModFromItemId ouid).toInt).toNat
  -- The arrays have room for so many items, and the source does not check the id.
  if maxItemsC ≤ uid then none
  if bins.icount uid = 0 then
    -- A new item waits since the last new one, and an old one since its own last event.
    let encid := encodeWaitIntoItemId ouid bins.wait
    -- The first item need not have id 0, and later ids need not be consecutive.
    let skip ← if bins.firstItem then some uid else bins.findSkip uid (uid + 1) 0
    let encid := encodeNewItemIntoId encid skip
    { bins with
      firstItem := false
      wait := 1
      ilast := Function.update bins.ilast uid bins.evTotal
      evTotal := bins.evTotal + 1
      iblock := writeBE4U encid bins.iblock (i * ps + itemIdOffset) }.store ps i uid
  else
    let encid := encodeWaitIntoItemId ouid (bins.evTotal - bins.ilast uid)
    { bins with
      wait := bins.wait + 1
      ilast := Function.update bins.ilast uid bins.evTotal
      evTotal := bins.evTotal + 1
      iblock := writeBE4U encid bins.iblock (i * ps + itemIdOffset) }.store ps i uid

/-- One event binned by the items that were announced. -/
def unshuffleStep (ps : Nat) (bins : ItemBins) (i : Nat) : Option ItemBins :=
  let ouid := readBE4U bins.iblock (i * ps + itemIdOffset)
  let skip := getIsNewItem ouid
  if skip ≠ 0 then
    -- The announcement is removed from the id, and the later events belong to the new item.
    { bins with
      curId := bins.curId + skip
      iblock := writeBE4U (encodeNewItemIntoId ouid skip) bins.iblock
        (i * ps + itemIdOffset) }.store ps i (bins.curId + skip)
  else bins.store ps i bins.curId

/-- The payloads of all items in item order, absent if they do not make up the block. -/
def gather (ps iblockLen : Nat) : Nat → Nat → List Payload → Option (List Payload)
  | 0, _, gathered => if gathered.length * ps = iblockLen then some gathered else none
  | left + 1, n, gathered =>
    if gathered.length * ps = iblockLen then some gathered
    else gather ps iblockLen left (n + 1) (gathered ++ bins.ibuffs n)

end ItemBins

/-- Payloads written to a block behind each other, each of a given size. -/
def writePayloads (ps : Nat) (iblock : Memory) (payloads : List Payload) : Memory :=
  (payloads.foldl (fun (ind, block) payload => (ind + ps, block.copy ind payload 0 ps))
    (0, iblock)).2

/-- How many events a block consists of. -/
def eventCount (ps iblockLen : Nat) : Nat := (iblockLen + ps - 1) / ps

/-- The item events of a block brought together, absent where the code leaves its arrays. -/
def shuffleItems (ps : Nat) (iblock : Memory) (iblockLen : Nat) : Option Memory := do
  let events := eventCount ps iblockLen
  let bins ← (List.range events).foldlM (ItemBins.shuffleStep ps) (ItemBins.start iblock)
  let gathered ← bins.gather ps iblockLen maxItemsC 0 []
  return writePayloads ps bins.iblock gathered

/-- How far the events of all items were put back. -/
structure ItemReplay where
  start : Nat
  waited : Nat
  evTotal : Nat
  ipos : Nat → Nat
  ilast : Nat → Nat
  /-- The payloads put back so far, in their order. -/
  copied : List Payload

namespace ItemReplay

variable (bins : ItemBins)

/-- The next event of an item put back, with its own id. -/
def copyBack (n : Nat) (ouid : Word) (payload : Payload) (replay : ItemReplay) : ItemReplay where
  start := replay.start
  waited := (if replay.ipos n = 0 then 0 else replay.waited) + 1
  evTotal := replay.evTotal + 1
  ipos := Function.update replay.ipos n (replay.ipos n + 1)
  ilast := Function.update replay.ilast n replay.evTotal
  copied := replay.copied ++ [writeBE4U (encodeWaitIntoItemId ouid n) payload itemIdOffset]

/-- The items from one on looked at once, with whether any event was put back. -/
def pass : Nat → Nat → ItemReplay × Bool → ItemReplay × Bool
  | 0, _, state => state
  | left + 1, n, (replay, written) =>
    if bins.icount n = 0 then pass left (n + 1) (replay, written)
    else
      match (bins.ibuffs n)[replay.ipos n]? with
      | none =>
        -- All of this item was put back, which moves the start on if it is the first one.
        pass left (n + 1)
          ({ replay with start := if n = replay.start then replay.start + 1 else replay.start },
            written)
      | some payload =>
        let ouid := readBE4U payload itemIdOffset
        let wait := getWaitFromItemId ouid
        let donewaiting := if replay.ipos n = 0 then wait = replay.waited
          else wait = replay.evTotal - replay.ilast n
        if donewaiting then pass left (n + 1) (replay.copyBack n ouid payload, true)
        else if replay.ipos n = 0 then (replay, written)
        else pass left (n + 1) (replay, written)

/-- The items looked at again and again until all events were put back, or none was. -/
def unshuffleLoop (events : Nat) : Nat → ItemReplay → Bool × List Payload
  | 0, replay => (false, replay.copied)
  | fuel + 1, replay =>
    if replay.copied.length < events then
      let (replay, written) := pass bins (bins.maxItem - replay.start) replay.start (replay, false)
      if written then unshuffleLoop events fuel replay else (false, replay.copied)
    else (true, replay.copied)

end ItemReplay

/-- The item events of a block put back into their order, with whether that succeeded, absent on a throw. -/
def unshuffleItems (ps : Nat) (iblock : Memory) (iblockLen : Nat) : Option (Bool × Memory) := do
  let events := eventCount ps iblockLen
  let bins ← (List.range events).foldlM (ItemBins.unshuffleStep ps) (ItemBins.start iblock)
  -- An array of no elements has no place for an initial value, and creating it throws.
  if bins.maxItem = 0 then none
  -- The array of last events is that of the binning, which never writes to it when decoding.
  let replay : ItemReplay :=
    { start := 0, waited := 0, evTotal := 0, ipos := fun _ => 0, ilast := bins.ilast, copied := [] }
  let (success, copied) := ItemReplay.unshuffleLoop bins events (events + 1) replay
  return (success, writePayloads ps bins.iblock copied)

end SlippCrunch
