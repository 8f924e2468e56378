import SlippCrunch.Slippc.EventCodec

/-! Calls of the compressor's inline functions, made in one order by its encoder and its decoder. -/

namespace SlippCrunch

open Compressor EscapeCode

namespace Compressor

variable {c : Compressor} {F : Type} [SingleOps F]

/-- Either way the float maps write one word. -/
theorem buildFloatMap_writes (off : Nat) :
    ∃ value, (c.buildFloatMap off).wb = c.wb.setWord (c.bp + off) value := by
  -- A float that is met first stays, which is as if it were written again.
  have nothing : c.wb = c.wb.setWord (c.bp + off) (c.wb.word (c.bp + off)) :=
    (Memory.setWord_word _ _).symm
  simp only [buildFloatMap, writeBE4U_eq]
  split
  · split
    · exact ⟨_, nothing⟩
    · exact ⟨_, rfl⟩
  · split
    · exact ⟨_, nothing⟩
    · exact ⟨_, rfl⟩

/-- Either way an analog value is one word. -/
theorem encodeAnalog_writes (off : Nat) (mult : F) :
    ∃ value, c.encodeAnalog off mult = { c with wb := c.wb.setWord (c.bp + off) value } := by
  -- A value that is left as it is might as well be written again.
  by_cases decodes : c.decodes
  · exact ⟨_, encodeAnalog_decode decodes off mult⟩
  · simp only [encodeAnalog, decodes, and_false, if_false, writeBE4U_eq]
    split
    · exact ⟨_, rfl⟩
    · exact ⟨c.wb.word (c.bp + off), by rw [Memory.setWord_word]⟩

/-- Working with a predictor writes one word. -/
theorem predictWith_writes (predictor : Predictor) :
    ∃ value history, c.predictWith predictor =
      { c with wb := c.wb.setWord (c.bp + predictor.off) value, history } := by
  -- Only the prediction writes, and only to the field.
  obtain ⟨value, written⟩ := predictFloat_wb (c := c) predictor.maxDiff
    (c.rb.word (c.bp + predictor.off)) (predictor.predict c.history) predictor.off
  exact ⟨value, _, by rw [predictWith, written]⟩

/-- Working on a difference writes one word. -/
theorem predictAsDifference_writes (off buffoff : Nat) (buff : HistoryBuffer) :
    ∃ value history, c.predictAsDifference F off buffoff buff =
      { c with wb := c.wb.setWord (c.bp + off) value, history } := by
  let floatPred := differencePrediction F (c.trueBuf.word (c.bp + buffoff))
    ((c.history buff).word buffoff)
  obtain ⟨value, written⟩ :=
    predictFloat_wb (c := c) 0x03FF (c.trueBuf.word (c.bp + off)) floatPred off
  -- The prediction is that of the other field, from the side that holds the true floats.
  have worked : c.predictAsDifference F off buffoff buff =
      let done := c.predictFloat 0x03FF off (c.trueBuf.word (c.bp + off)) floatPred
      done.remember buff buffoff done.trueBuf (done.bp + buffoff) 4 := by
    simp only [predictAsDifference, readBE4F_eq]
    rfl
  rw [written] at worked
  exact ⟨value, _, worked⟩

end Compressor

namespace FieldCall

variable {F : Type} [SingleOps F]

/-- Apart from the float maps a call changes its field and the buffers of earlier events. -/
theorem run_writes (call : FieldCall F) (c : Compressor) :
    (∃ bp off, call = .buildFloatMap bp off) ∨
      ∃ bp wb history, call.run c = { c with bp, wb, history } ∧ Set.EqOn wb c.wb call.spanᶜ := by
  -- Every call but the last writes a single word.
  have oneWord : ∀ {done : Compressor} {bp address : Nat},
      (∃ value history, done = { c with bp, wb := c.wb.setWord address value, history }) →
        ∃ bp wb history, done = { c with bp, wb, history } ∧
          Set.EqOn wb c.wb (Memory.wordSpan address)ᶜ := by
    rintro done bp address ⟨value, history, rfl⟩
    exact ⟨_, _, _, rfl, fun position outside => Memory.setWord_of_not_mem outside⟩
  cases call with
  | buildFloatMap bp off => exact .inl ⟨bp, off, rfl⟩
  | encodeAnalog bp off mult =>
    obtain ⟨value, written⟩ := encodeAnalog_writes (c := { c with bp }) off mult
    exact .inr (oneWord ⟨value, _, written⟩)
  | predictAsDifference bp off buffoff buff =>
    exact .inr (oneWord (predictAsDifference_writes (c := { c with bp }) off buffoff buff))
  | predictJolt bp off buff1 buff2 buff3 buff4 =>
    rw [run, predictJolt_eq]
    exact .inr (oneWord (predictWith_writes (c := { c with bp }) _))
  | predictAccel bp off buff1 buff2 buff3 =>
    rw [run, predictAccel_eq]
    exact .inr (oneWord (predictWith_writes (c := { c with bp }) _))
  | predictVeloc bp off buff1 buff2 =>
    rw [run, predictVeloc_eq]
    exact .inr (oneWord (predictWith_writes (c := { c with bp }) _))
  | xorEncodeRange bp start stop buffer =>
    rw [run, xorEncodeRange_length, xorEncodeRange_eq]
    refine .inr ⟨_, _, _, rfl, fun position outside => ?_⟩
    apply if_neg
    rintro ⟨atLeast, below⟩
    apply outside
    have atLeast : bp + start ≤ position := atLeast
    have below : position < bp + start + (stop - start) := below
    exact ⟨atLeast, by omega⟩

/-- A call writes nothing but its own field. -/
theorem run_outside (call : FieldCall F) (c : Compressor) :
    Set.EqOn (call.run c).wb c.wb call.spanᶜ := by
  -- The float maps are the one case that changes more than the buffers.
  rcases call.run_writes c with ⟨bp, off, rfl⟩ | ⟨bp, wb, history, ran, outside⟩
  · obtain ⟨value, written⟩ := buildFloatMap_writes (c := { c with bp }) off
    intro position outside
    rw [run, written]
    exact Memory.setWord_of_not_mem outside
  · rw [ran]
    exact outside

end FieldCall

namespace Compressor

variable (c : Compressor) (field : FrameField) (refFrame : Word)

/-- The search for a number of rolls always ends, so the two calls always return. -/
theorem predictFrameThenRNG_isSome : (c.predictFrameThenRNG field refFrame (2 ^ 32)).isSome := by
  -- Predicting the number always returns, and so does decoding a seed.
  let start := { c with bp := field.bp }
  obtain ⟨value, written⟩ :=
    predictFrame_wb (c := start) (c.rb.word field.frameAddr) refFrame field.frameAddr
  have predicted : start.predictFrame (c.rb.word field.frameAddr) refFrame field.frameAddr =
      (_, { start with wb := c.wb.setWord field.frameAddr value }) := Prod.ext rfl written
  rw [predictFrameThenRNG_eq (2 ^ 32) predicted, Option.isSome_map, predictRNG]
  split
  · rfl
  · -- Only the search through the seeds of an old replay could fail to end.
    simp only [encodeRNG]
    split
    · split
      · rfl
      · split
        · rfl
        · rfl
    · rw [Option.isSome_map]
      obtain ⟨rolls, found, _⟩ := rollUntil_total
        (readBE4U { start with wb := c.wb.setWord field.frameAddr value }.rb
          (field.bp + field.rngoff)) c.rng
      exact Option.isSome_of_eq_some found

/-- What the two calls for a frame number and its seed return, whatever number of rolls that takes. -/
def frameThenRNG : Word × Compressor :=
  (c.predictFrameThenRNG field refFrame (2 ^ 32)).get (c.predictFrameThenRNG_isSome field refFrame)

/-- With fuel for every number of rolls the two calls return that. -/
theorem predictFrameThenRNG_frameThenRNG : c.predictFrameThenRNG field refFrame (2 ^ 32) =
    some ((c.frameThenRNG field refFrame).1, (c.frameThenRNG field refFrame).2) := (Option.some_get _).symm

variable {c field refFrame}

/-- What the two calls return with enough fuel is what they return. -/
theorem frameThenRNG_eq {done : Word × Compressor}
    (worked : c.predictFrameThenRNG field refFrame (2 ^ 32) = some done) :
    c.frameThenRNG field refFrame = done := by
  simp only [frameThenRNG, worked, Option.get_some]

end Compressor

/--
A call that a caller makes of the compressor for an event, in one direction or the other.

The callers themselves are not part of the model: any list of calls stands for what they may do.
-/
inductive EventCall (F : Type) where
  /-- The frame number is predicted from some reference among the numbers met before. -/
  | frame (address : Nat) (reference : List Word → Word)
  /-- The frame number is predicted in the same way, and after it the seed beside it. -/
  | frameThenRNG (place : FrameField) (reference : List Word → Word)
  /-- Another field is worked on. -/
  | field (call : FieldCall F)

/-- The compressor between two calls, with the frame numbers it has met, the latest first. -/
structure Coder where
  compressor : Compressor
  frames : List Word

namespace EventCall

variable {F : Type} [SingleOps F]

/-- The call made in a direction, the numbers it predicts being those in the buffer it reads. -/
def work (encodeVer : Byte) (coder : Coder) (call : EventCall F) (rb wb : Memory) :
    Memory × Coder :=
  let c := { coder.compressor with encodeVer, rb, wb }
  match call with
  | .frame address reference =>
    let (number, done) := c.predictFrameAt address (reference coder.frames)
    (done.wb, { compressor := done, frames := number :: coder.frames })
  | .frameThenRNG place reference =>
    let (number, done) := c.frameThenRNG place (reference coder.frames)
    (done.wb, { compressor := done, frames := number :: coder.frames })
  | .field call =>
    let done := call.run c
    (done.wb, { coder with compressor := done })

/-- The addresses a call works on. -/
def span : EventCall F → Set Nat
  | .frame address _ => Memory.wordSpan address
  | .frameThenRNG place _ => place.span
  | .field call => call.span

/-- The addresses of another field that a call looks at. -/
def needs : EventCall F → Set Nat
  | .frame _ _ | .frameThenRNG _ _ => ∅
  | .field call => call.needs

/-- A frame number and its difference to what is expected are clear of the flag. -/
def Unflagged (coder : Coder) (reference : List Word → Word) (number : Word) : Prop :=
  checkRawRNG number = false ∧
    checkRawRNG (number - (reference coder.frames + frameEncDelta)) = false

/-- The frame number is clear of the flag, or the field can be told apart. -/
def Admits (coder : Coder) (call : EventCall F) (plain : Memory) : Prop :=
  match call with
  | .frame address reference => Unflagged coder reference (plain.word address)
  | .frameThenRNG place reference => Unflagged coder reference (plain.word place.frameAddr)
  | .field call => call.Admits { coder.compressor with rb := plain }

end EventCall

/-- Both sides predict alike. -/
structure Coder.Synced (encoder decoder : Coder) : Prop where
  compressor : encoder.compressor.Synced decoder.compressor
  frames : decoder.frames = encoder.frames

namespace EventCall

variable {F : Type} [SingleOps F] {encoder decoder : Coder}

/-- The buffers and the direction do not matter for being in step. -/
theorem synced_facing (synced : encoder.compressor.Synced decoder.compressor)
    (direction direction' : Byte) (rb rb' wb wb' : Memory) :
    { encoder.compressor with encodeVer := direction, rb, wb }.Synced
      { decoder.compressor with encodeVer := direction', rb := rb', wb := wb' } := by
  -- None of what is compared is a buffer or the direction.
  obtain ⟨seen, maps, maps'⟩ := synced.floats
  exact {
    version := synced.version
    rngStart := synced.rngStart
    rng := synced.rng
    history := synced.history
    floats := ⟨seen, maps.transfer rfl rfl rfl, maps'.transfer rfl rfl rfl⟩ }

/-- A call writes nothing but its own fields. -/
theorem work_outside (direction : Byte) (coder : Coder) (call : EventCall F) (rb wb : Memory) :
    Set.EqOn (call.work direction coder rb wb).1 wb call.spanᶜ := by
  -- Every kind of call has its own law of what it writes.
  let c := { coder.compressor with encodeVer := direction, rb, wb }
  cases call with
  | frame address reference =>
    obtain ⟨value, written⟩ := (c.predictFrameAt_writes address (reference coder.frames)).2
    intro position outside
    show (c.predictFrameAt address (reference coder.frames)).2.wb position = wb position
    rw [written]
    exact Memory.setWord_of_not_mem outside
  | frameThenRNG place reference =>
    exact predictFrameThenRNG_outside (c.predictFrameThenRNG_frameThenRNG place (reference coder.frames))
  | field call => exact call.run_outside c

/-- A frame number that the flag keeps clear of comes back. -/
theorem frame_roundTrip {address : Nat} {reference : List Word → Word}
    {plain target coded restored : Memory} (synced : encoder.Synced decoder)
    (admits : (EventCall.frame address reference : EventCall F).Admits encoder plain)
    (source : Set.EqOn coded
      ((EventCall.frame address reference : EventCall F).work 0 encoder plain target).1
      (Memory.wordSpan address)) :
    Set.EqOn ((EventCall.frame address reference : EventCall F).work compretzVersion decoder coded
        restored).1 plain (Memory.wordSpan address) ∧
      ((EventCall.frame address reference : EventCall F).work 0 encoder plain target).2.Synced
        ((EventCall.frame address reference : EventCall F).work compretzVersion decoder coded
          restored).2 := by
  obtain ⟨unflagged, unflaggedDelta⟩ := admits
  let c := { encoder.compressor with encodeVer := 0, rb := plain, wb := target }
  let d := { decoder.compressor with encodeVer := compretzVersion, rb := coded, wb := restored }
  have encodes : ¬ c.decodes := fun decodes => decodes rfl
  have decodes : d.decodes := by
    show compretzVersion ≠ 0
    decide
  -- The encoder writes the difference, from which the decoder computes the number again.
  let delta := plain.word address - (reference encoder.frames + frameEncDelta)
  have encoded := predictFrameAt_encode (c := c) encodes (reference encoder.frames) unflagged
  have written : ((EventCall.frame address reference : EventCall F).work 0 encoder plain target) =
      (target.setWord address delta, {
        compressor := { c with wb := target.setWord address delta }
        frames := plain.word address :: encoder.frames }) := by
    rw [work, encoded]
  rw [written] at source
  have atDelta : d.rb.word address = delta :=
    (Memory.word_congr source).trans (Memory.word_setWord _ _ _)
  have decoded := predictFrameAt_decode (c := d) decodes unflaggedDelta atDelta
  have rewritten : ((EventCall.frame address reference : EventCall F).work compretzVersion decoder
      coded restored) =
      (restored.setWord address (plain.word address), {
        compressor := { d with wb := restored.setWord address (plain.word address) }
        frames := plain.word address :: decoder.frames }) := by
    rw [work, synced.frames, decoded]
  rw [written, rewritten]
  constructor
  · exact Memory.eqOn_of_word_eq (Memory.word_setWord _ _ _)
  · constructor
    · exact synced_facing synced.compressor 0 compretzVersion plain coded _ _
    · show _ :: decoder.frames = _ :: encoder.frames
      rw [synced.frames]

/-- A frame that the flag keeps clear of comes back with its seed. -/
theorem frameThenRNG_roundTrip {place : FrameField} {reference : List Word → Word}
    {plain target coded restored : Memory} (synced : encoder.Synced decoder)
    (admits : (EventCall.frameThenRNG place reference : EventCall F).Admits encoder plain)
    (fresh : Set.EqOn target plain place.span)
    (source : Set.EqOn coded
      ((EventCall.frameThenRNG place reference : EventCall F).work 0 encoder plain target).1 place.span)
    (pending : Set.EqOn restored coded place.span) :
    Set.EqOn ((EventCall.frameThenRNG place reference : EventCall F).work compretzVersion decoder coded
        restored).1 plain place.span ∧
      ((EventCall.frameThenRNG place reference : EventCall F).work 0 encoder plain target).2.Synced
        ((EventCall.frameThenRNG place reference : EventCall F).work compretzVersion decoder coded
          restored).2 := by
  obtain ⟨unflagged, unflaggedDelta⟩ := admits
  let c := { encoder.compressor with encodeVer := 0, rb := plain, wb := target }
  let d := { decoder.compressor with encodeVer := compretzVersion, rb := coded, wb := restored }
  have inStep := synced_facing synced.compressor 0 compretzVersion plain coded target restored
  have encodes : ¬ c.decodes := fun decodes => decodes rfl
  have decodes : d.decodes := by
    show compretzVersion ≠ 0
    decide
  -- What the encoder writes for the frame and its seed is some code of them.
  obtain ⟨rng, wb, encoded, code⟩ := predictFrameThenRNG_encode (c := c) encodes
    (reference encoder.frames) (Memory.word_congr fun _ inside => fresh (.inr inside)) unflagged
  have worked := frameThenRNG_eq encoded
  have written : ((EventCall.frameThenRNG place reference : EventCall F).work 0 encoder plain target) =
      (wb, {
        compressor := { c with bp := place.bp, rng, wb }
        frames := plain.word place.frameAddr :: encoder.frames }) := by
    rw [work, worked]
  rw [written] at source
  -- The decoder is handed the two words of the code, and finds the second one in its own buffer.
  have atF : coded.word place.frameAddr = wb.word place.frameAddr :=
    Memory.word_congr fun _ inside => source (.inl inside)
  have atR : coded.word place.rngAddr = wb.word place.rngAddr :=
    Memory.word_congr fun _ inside => source (.inr inside)
  have pendingR : restored.word place.rngAddr = wb.word place.rngAddr :=
    (Memory.word_congr fun _ inside => pending (.inr inside)).trans atR
  -- The code is decoded to the frame and the seed, and both sides go on from one state.
  obtain ⟨rng', wb', decoded, frameBack, seedBack, sameRng⟩ := predictFrameThenRNG_decode decodes
    code inStep.toRngSynced rfl unflagged unflaggedDelta atF atR pendingR (2 ^ 32)
  have reworked := frameThenRNG_eq decoded
  have rewritten : ((EventCall.frameThenRNG place reference : EventCall F).work compretzVersion decoder
      coded restored) =
      (wb', {
        compressor := { d with bp := place.bp, rng := rng', wb := wb' }
        frames := plain.word place.frameAddr :: decoder.frames }) := by
    rw [work, synced.frames, reworked]
  rw [written, rewritten]
  constructor
  · rintro position (inside | inside)
    · exact Memory.eqOn_of_word_eq frameBack inside
    · exact Memory.eqOn_of_word_eq seedBack inside
  · -- The seeds agree where they matter, and nothing else that is compared was changed.
    obtain ⟨seen, maps, maps'⟩ := inStep.floats
    constructor
    · exact {
        version := inStep.version
        rngStart := inStep.rngStart
        rng := sameRng
        history := inStep.history
        floats := ⟨seen, maps.transfer rfl rfl rfl, maps'.transfer rfl rfl rfl⟩ }
    · show _ :: decoder.frames = _ :: encoder.frames
      rw [synced.frames]

/-- A field that both sides find prepared makes its round trip. -/
theorem field_ready {call : FieldCall F} {plain target coded restored : Memory}
    (synced : encoder.Synced decoder) (fresh : Set.EqOn target plain call.span)
    (source : Set.EqOn coded ((EventCall.field call).work 0 encoder plain target).1 call.span)
    (pending : Set.EqOn restored coded call.span) (needs : Set.EqOn restored plain call.needs) :
    call.Ready { encoder.compressor with encodeVer := 0, rb := plain, wb := target }
      { decoder.compressor with encodeVer := compretzVersion, rb := coded, wb := restored } where
  encodes := fun decodes => decodes rfl
  decodes := by
    show compretzVersion ≠ 0
    decide
  synced := synced_facing synced.compressor 0 compretzVersion plain coded target restored
  fresh := fresh
  source := source
  pending := pending
  needs := needs

end EventCall

/-- The compressor's inline functions as an encoder and a decoder in lockstep. -/
def eventCodec (F : Type) [SingleOps F] : LockstepCodec Nat Byte Coder (EventCall F) where
  encode coder call := call.work 0 coder
  decode coder call := call.work compretzVersion coder
  span := EventCall.span
  needs := EventCall.needs
  Admits := EventCall.Admits
  Synced := Coder.Synced
  encode_outside := EventCall.work_outside 0
  decode_outside := EventCall.work_outside compretzVersion
  decode_encode := by
    intro encoder decoder call plain target coded restored synced admits fresh source pending needs
    cases call with
    | frame address reference => exact EventCall.frame_roundTrip synced admits source
    | frameThenRNG place reference =>
      exact EventCall.frameThenRNG_roundTrip synced admits fresh source pending
    | field call =>
      have ready := EventCall.field_ready synced fresh source pending needs
      have tripped := FieldCall.roundTrips ready
      exact ⟨tripped.restores.mpr admits, tripped.synced admits, synced.frames⟩

end SlippCrunch
