import SlippCrunch.Basis.SingleFloats
import SlippCrunch.Slippc.Util

/-! The compressor's encoding of single event fields, each function working in both directions. -/

namespace SlippCrunch

/-- The internal version of the compressor, which an encoded replay carries. -/
def compretzVersion : Byte := 2

/-- The second bit of a frame number tells that the RNG seed is stored raw. -/
def rawRngMask : Word := 0x40000000

/-- The bits that a float is not expected to have all set. -/
def magicFloat : Word := 0xFF000000

/-- The exponent of a float. -/
def exponentBits : Word := 0x7F800000

/-- What a frame number is expected to grow by. -/
def frameEncDelta : Word := 1

/-- The most rolls of the RNG that are counted. -/
def maxRolls : Nat := 128

/-- The buffers of earlier events, of a player or of an item slot. -/
inductive HistoryBuffer where
  | xPreFrame (p : Nat)
  | xPreFrame2 (p : Nat)
  | xPostFrame (p : Nat)
  | xPostFrame2 (p : Nat)
  | xPostFrame3 (p : Nat)
  | xItem (p : Nat)
  | xItem2 (p : Nat)
  | xItem3 (p : Nat)
  | xItem4 (p : Nat)
  | xItemP (p : Nat)
  deriving DecidableEq

/-- The compressor's state, as far as the encoding of fields depends on it. -/
structure Compressor where
  version : SlippiVersion
  /-- Zero while a replay is encoded, the version of the compressor while it is decoded. -/
  encodeVer : Byte
  floatToInt : Word → Option Word
  intToFloat : Word → Option Word
  intToFloatC : Word → Option Word
  numFloats : Word
  rng : Word
  rngStart : Word
  history : HistoryBuffer → Memory
  /-- The read buffer. -/
  rb : Memory
  /-- The write buffer. -/
  wb : Memory
  /-- The current position in both buffers. -/
  bp : Nat

namespace Compressor

variable (c : Compressor)

/-- The compressor restores a replay rather than shrinking it. -/
def decodes : Prop := c.encodeVer ≠ 0

instance : Decidable c.decodes := inferInstanceAs (Decidable (_ ≠ _))

/-- Part of a memory copied into a buffer of earlier events. -/
def remember (buff : HistoryBuffer) (off : Nat) (source : Memory) (origin length : Nat) :
    Compressor :=
  { c with history :=
      Function.update c.history buff ((c.history buff).copy off source origin length) }

section Random

/-- The next RNG seed of old replays, rolled in 64-bit arithmetic. -/
def rollRNGLegacy (seed : Word) : Word :=
  BitVec.ofInt 32 ((seed.toInt * 214013 + 2531011).tmod 4294967296)

/-- The next RNG seed of new replays. -/
def rollRNGRollback (seed : Word) : Word :=
  BitVec.ofInt 32 ((seed + 65536).toInt.tmod 4294967296)

/-- The RNG seed that new replays start a frame with. -/
def computeRNGRollback (framenum : Word) : Word :=
  BitVec.ofNat 32 (((framenum + 123) * 65536 + c.rngStart).toNat % 4294967296)

/-- The first two bits of a frame number differ, so the seed beside it is stored raw. -/
def checkRawRNG (frame : Word) : Bool :=
  -- The shifts keep the sign, and the mask leaves one bit of it.
  let bit1 := (frame.sshiftRight 31 &&& 0x01).setWidth 8
  let bit2 := (frame.sshiftRight 30 &&& 0x01).setWidth 8
  let rngIsRaw := bit1 ^^^ bit2
  decide (rngIsRaw > (0 : Byte))

/-- A frame number without the bit for the RNG. -/
def withoutRawRNG (frame : Word) : Word :=
  if checkRawRNG frame then frame ^^^ rawRngMask else frame

/-- The difference to the predicted frame number, or the number restored from it. -/
def predictFrame (frame refFrame : Word) (writeAddr : Option Nat) : Word × Compressor :=
  let rngIsRaw := checkRawRNG frame
  let frame := withoutRawRNG frame
  -- A bit that was removed is set again where the number is written.
  let bitmask := if rngIsRaw then rawRngMask else 0
  if c.decodes then
    -- A decoder reads the difference and returns the number, an encoder the other way round.
    let frameDeltaPred := frame + (refFrame + frameEncDelta)
    (frameDeltaPred, match writeAddr with
      | some address => { c with wb := writeBE4S (frameDeltaPred ^^^ bitmask) c.wb address }
      | none => c)
  else
    let frameDeltaPred := frame - (refFrame + frameEncDelta)
    (frameDeltaPred, match writeAddr with
      | some address => { c with wb := writeBE4S frameDeltaPred c.wb address }
      | none => c)

/-- The rolls counted until the target is met, at most as many more as are left. -/
def countRolls (roll : Word → Word) (target : Word) : Nat → Word → Nat → Nat
  | 0, _, rolls => rolls
  | left + 1, startRng, rolls =>
    if startRng ≠ target then countRolls roll target left (roll startRng) (rolls + 1) else rolls

/-- The rolls of an old replay counted until the seed is met, as long as there is fuel. -/
def rollUntil (seed : Word) : Nat → Word → Word → Option (Word × Word)
  | 0, _, _ => none
  | fuel + 1, rng, rolls =>
    if rng ≠ seed then rollUntil seed fuel (rollRNGLegacy rng) (rolls + 1) else some (rng, rolls)

/-- The seed and the frame number of an event written in place of what stands for them. -/
def decodeRNG (frameoff rngoff : Nat) : Compressor :=
  let frame := readBE4S c.wb (c.bp + frameoff)
  let rngIsRaw := checkRawRNG frame
  let frame := withoutRawRNG frame
  if c.version.minVersion 3 6 0 then
    -- The generator starts each frame anew, from the number of the frame.
    let rng := c.computeRNGRollback frame
    if rngIsRaw then
      { c with rng, wb := writeBE4U frame c.wb (c.bp + frameoff) }
    else
      let rolls := (readBE4U c.rb (c.bp + rngoff)).toNat
      -- Counts from the limit on are those of the older generator.
      let rng := if rolls < maxRolls then rollRNGRollback^[rolls] rng
        else rollRNGLegacy^[rolls - maxRolls] rng
      { c with rng, wb := writeBE4U rng c.wb (c.bp + rngoff) }
  else
    let rolls := (readBE4U c.rb (c.bp + rngoff)).toNat
    let rng := rollRNGLegacy^[rolls] c.rng
    { c with rng, wb := writeBE4U rng c.wb (c.bp + rngoff) }

/-- The seed of an event replaced by the number of rolls that lead to it, absent without an end. -/
def encodeRNG (frameoff rngoff fuel : Nat) : Option Compressor :=
  let frame := withoutRawRNG (readBE4S c.rb (c.bp + frameoff))
  let target := readBE4U c.rb (c.bp + rngoff)
  if c.version.minVersion 3 6 0 then
    let rng := c.computeRNGRollback frame
    let rolls := countRolls rollRNGRollback target maxRolls rng 0
    if rolls < maxRolls then
      some { c with
        rng := target, wb := writeBE4U (BitVec.ofNat 32 rolls) c.wb (c.bp + rngoff) }
    else
      let rolls := countRolls rollRNGLegacy target maxRolls rng 0
      if rolls < maxRolls then
        some { c with
          rng, wb := writeBE4U (BitVec.ofNat 32 (rolls + maxRolls)) c.wb (c.bp + rngoff) }
      else
        -- The seed stays as it is, which the frame number written before has to tell.
        let predictedFrame := readBE4S c.wb (c.bp + frameoff)
        some { c with
          rng, wb := writeBE4S (predictedFrame ^^^ rawRngMask) c.wb (c.bp + frameoff) }
  else
    (rollUntil target fuel c.rng 0).map fun (rng, rolls) =>
      { c with rng, wb := writeBE4U rolls c.wb (c.bp + rngoff) }

/-- Predict the RNG seed of an event, absent if the search for its number of rolls has no end. -/
def predictRNG (frameoff rngoff fuel : Nat) : Option Compressor :=
  if c.decodes then some (c.decodeRNG frameoff rngoff) else c.encodeRNG frameoff rngoff fuel

end Random

section Floats

/-- Map floats that were seen before to their index, and indices back to floats. -/
def buildFloatMap (off : Nat) : Compressor :=
  let encFloat := readBE4U c.rb (c.bp + off)
  if c.decodes then
    if encFloat &&& magicFloat ≠ magicFloat then
      { c with
        floatToInt := Function.update c.floatToInt encFloat (some c.numFloats)
        intToFloat := Function.update c.intToFloat c.numFloats (some encFloat)
        numFloats := c.numFloats + 1 }
    else
      let index := encFloat &&& (magicFloat ^^^ 0xFFFFFFFF)
      -- Looking up an unknown index enters zero for it.
      let asUnsigned := (c.intToFloat index).getD 0
      { c with
        intToFloat := Function.update c.intToFloat index (some asUnsigned)
        wb := writeBE4U asUnsigned c.wb (c.bp + off) }
  else
    match c.floatToInt encFloat with
    | none =>
      { c with
        floatToInt := Function.update c.floatToInt encFloat (some c.numFloats)
        intToFloat := Function.update c.intToFloat c.numFloats (some encFloat)
        intToFloatC := Function.update c.intToFloatC c.numFloats (some 1)
        numFloats := c.numFloats + 1 }
    | some index =>
      { c with
        intToFloatC :=
          Function.update c.intToFloatC index (some ((c.intToFloatC index).getD 0 + 1))
        wb := writeBE4U (index ||| magicFloat) c.wb (c.bp + off) }

variable {F : Type} [SingleOps F]

/-- The float an analog value encoded in one byte stands for. -/
def analogFloat (mult : F) (value : Byte) : Word :=
  let wide := SingleOps.lt (SingleOps.literal 127) mult
  SingleOps.toBits (SingleOps.div
    (if wide then SingleOps.ofUInt8 value else SingleOps.ofInt8 value : F) mult)

/-- The byte next to an analog value. -/
def analogByte (mult : F) (floatTrue : Word) : Byte :=
  let wide := SingleOps.lt (SingleOps.literal 127) mult
  let scaled := SingleOps.mul (SingleOps.ofBits floatTrue) mult
  if wide then SingleOps.roundToUInt8 scaled else SingleOps.roundToInt8 scaled

/-- Replace an analog value by one byte if that byte stands for it exactly. -/
def encodeAnalog (off : Nat) (mult : F) : Compressor :=
  let mainBuf := if c.decodes then c.wb else c.rb
  let floatTrue := readBE4U mainBuf (c.bp + off)
  if floatTrue &&& exponentBits ≠ 0 ∧ c.decodes then
    -- What still has an exponent was not replaced.
    c
  else if c.decodes then
    let floatPred := analogFloat mult (floatTrue.setWidth 8)
    { c with wb := writeBE4F floatPred c.wb (c.bp + off) }
  else
    let floatPred := analogByte mult floatTrue
    let floatRest := analogFloat mult floatPred
    if floatRest = floatTrue then
      { c with wb := writeBE4U (floatPred.setWidth 32) c.wb (c.bp + off) }
    else c

/-- Replace a float close to its prediction by the difference, or apply that difference again. -/
def predictFloat (maxDiff : Word) (off : Nat) (floatTrue floatPred : Word) : Compressor :=
  if c.decodes then
    -- A small difference to the mark is one to the prediction.
    let diff := floatTrue ^^^ magicFloat
    if diff ≤ maxDiff then
      { c with wb := writeBE4F (floatPred ^^^ diff) c.wb (c.bp + off) }
    else c
  else
    -- A float that is not close enough stays in the buffer as it is.
    let floatTemp := floatPred ^^^ floatTrue
    if floatTemp ≤ maxDiff then
      { c with wb := writeBE4U (magicFloat ^^^ floatTemp) c.wb (c.bp + off) }
    else c

/-- The buffer that holds the true value of a field once the field was worked on. -/
def trueBuf : Memory := if c.decodes then c.wb else c.rb

/-- Predict a float as the difference of another field to its earlier value. -/
def predictAsDifference (F : Type) [SingleOps F] (off buffoff : Nat) (buff : HistoryBuffer) :
    Compressor :=
  -- Both fields are taken from the side on which they stand in their true form.
  let mainBuf := c.trueBuf
  let floatTrue := readBE4F mainBuf (c.bp + off)
  let now : F := SingleOps.ofBits (readBE4F mainBuf (c.bp + buffoff))
  let before : F := SingleOps.ofBits (readBE4F (c.history buff) buffoff)
  let done := c.predictFloat 0x03FF off floatTrue (SingleOps.toBits (SingleOps.sub now before))
  done.remember buff buffoff done.trueBuf (done.bp + buffoff) 4

/-- The float that continues four earlier ones without a change of their jolt. -/
def joltPrediction (F : Type) [SingleOps F] (bits1 bits2 bits3 bits4 : Word) : Word :=
  let pos1 : F := SingleOps.ofBits bits1
  let pos2 : F := SingleOps.ofBits bits2
  let pos3 : F := SingleOps.ofBits bits3
  let pos4 : F := SingleOps.ofBits bits4
  let vel1 := SingleOps.sub pos1 pos2
  let vel2 := SingleOps.sub pos2 pos3
  let vel3 := SingleOps.sub pos3 pos4
  let acc1 := SingleOps.sub vel1 vel2
  let acc2 := SingleOps.sub vel2 vel3
  let jlt1 := SingleOps.sub acc1 acc2
  SingleOps.toBits (SingleOps.add (SingleOps.add (SingleOps.add pos1 vel1) acc1) jlt1)

/-- Predict a float from four buffers. -/
def predictJolt (F : Type) [SingleOps F] (off : Nat) (buff1 buff2 buff3 buff4 : HistoryBuffer) :
    Compressor :=
  let floatPred := joltPrediction F (readBE4F (c.history buff1) off) (readBE4F (c.history buff2) off)
    (readBE4F (c.history buff3) off) (readBE4F (c.history buff4) off)
  let done := c.predictFloat 0xFF off (readBE4F c.rb (c.bp + off)) floatPred
  -- Every buffer moves one event back, the oldest first.
  let done := done.remember buff4 off (done.history buff3) off 4
  let done := done.remember buff3 off (done.history buff2) off 4
  let done := done.remember buff2 off (done.history buff1) off 4
  done.remember buff1 off done.trueBuf (done.bp + off) 4

/-- The float that continues three earlier ones without a change of their acceleration. -/
def accelPrediction (F : Type) [SingleOps F] (bits1 bits2 bits3 : Word) : Word :=
  let pos1 : F := SingleOps.ofBits bits1
  let pos2 : F := SingleOps.ofBits bits2
  let pos3 : F := SingleOps.ofBits bits3
  let vel1 := SingleOps.sub pos1 pos2
  let vel2 := SingleOps.sub pos2 pos3
  let acc1 := SingleOps.sub vel1 vel2
  SingleOps.toBits (SingleOps.add (SingleOps.add pos1 vel1) acc1)

/-- Predict a float from three buffers. -/
def predictAccel (F : Type) [SingleOps F] (off : Nat) (buff1 buff2 buff3 : HistoryBuffer) :
    Compressor :=
  let floatPred := accelPrediction F (readBE4F (c.history buff1) off)
    (readBE4F (c.history buff2) off) (readBE4F (c.history buff3) off)
  let done := c.predictFloat 0xFF off (readBE4F c.rb (c.bp + off)) floatPred
  let done := done.remember buff3 off (done.history buff2) off 4
  let done := done.remember buff2 off (done.history buff1) off 4
  done.remember buff1 off done.trueBuf (done.bp + off) 4

/-- The float that continues two earlier ones without a change of their velocity. -/
def velocPrediction (F : Type) [SingleOps F] (bits1 bits2 : Word) : Word :=
  let pos1 : F := SingleOps.ofBits bits1
  let pos2 : F := SingleOps.ofBits bits2
  SingleOps.toBits (SingleOps.sub (SingleOps.mul (SingleOps.literal 2) pos1) pos2)

/-- Predict a float from two buffers, marking only exact predictions. -/
def predictVeloc (F : Type) [SingleOps F] (off : Nat) (buff1 buff2 : HistoryBuffer) : Compressor :=
  let floatTrue := readBE4F c.rb (c.bp + off)
  let floatPred := velocPrediction F (readBE4F (c.history buff1) off) (readBE4F (c.history buff2) off)
  let floatTemp := floatPred ^^^ floatTrue
  -- The mark itself stands for an exact prediction, so there is no difference to keep.
  let done :=
    if c.decodes then
      if floatTrue = magicFloat then { c with wb := writeBE4F floatPred c.wb (c.bp + off) } else c
    else if floatTemp = 0 then { c with wb := writeBE4U magicFloat c.wb (c.bp + off) } else c
  let done := done.remember buff2 off (done.history buff1) off 4
  done.remember buff1 off done.trueBuf (done.bp + off) 4

/-- Predict from the previous four item events. -/
def predictJoltItem (F : Type) [SingleOps F] (p off : Nat) : Compressor :=
  c.predictJolt F off (.xItem p) (.xItem2 p) (.xItem3 p) (.xItem4 p)

/-- Predict from the previous three post-frame events. -/
def predictAccelPost (F : Type) [SingleOps F] (p off : Nat) : Compressor :=
  c.predictAccel F off (.xPostFrame p) (.xPostFrame2 p) (.xPostFrame3 p)

/-- Predict from the previous three item events. -/
def predictAccelItem (F : Type) [SingleOps F] (p off : Nat) : Compressor :=
  c.predictAccel F off (.xItem p) (.xItem2 p) (.xItem3 p)

/-- Predict from the previous two pre-frame events. -/
def predictVelocPre (F : Type) [SingleOps F] (p off : Nat) : Compressor :=
  c.predictVeloc F off (.xPreFrame p) (.xPreFrame2 p)

/-- Predict from the previous two post-frame events. -/
def predictVelocPost (F : Type) [SingleOps F] (p off : Nat) : Compressor :=
  c.predictVeloc F off (.xPostFrame p) (.xPostFrame2 p)

/-- Predict from the previous two item events. -/
def predictVelocItem (F : Type) [SingleOps F] (p off : Nat) : Compressor :=
  c.predictVeloc F off (.xItem p) (.xItem2 p)

/-- One byte combined with the byte of an earlier event. -/
def xorEncodeByte (buffer : HistoryBuffer) (c : Compressor) (i : Nat) : Compressor :=
  let written :=
    { c with wb := Function.update c.wb (c.bp + i) (c.rb (c.bp + i) ^^^ c.history buffer i) }
  let remembered :=
    Function.update (written.history buffer) i (written.trueBuf (written.bp + i))
  { written with history := Function.update written.history buffer remembered }

/-- The bytes of a range combined with those of an earlier event. -/
def xorEncodeRange (start stop : Nat) (buffer : HistoryBuffer) : Compressor :=
  (List.range' start (stop - start)).foldl (xorEncodeByte buffer) c

end Floats

end Compressor

end SlippCrunch
