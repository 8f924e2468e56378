import SlippCrunch.Slippc.FieldLaws
import SlippCrunch.Slippc.FrameRng

/-! Calls of the compressor for single fields, each of which restores its field or loses it. -/

namespace SlippCrunch

open Compressor EscapeCode

/-- A call of one of the compressor's functions for a field of the event at a position. -/
inductive FieldCall (F : Type) where
  | buildFloatMap (bp off : Nat)
  | encodeAnalog (bp off : Nat) (mult : F)
  | predictAsDifference (bp off buffoff : Nat) (buff : HistoryBuffer)
  | predictJolt (bp off : Nat) (buff1 buff2 buff3 buff4 : HistoryBuffer)
  | predictAccel (bp off : Nat) (buff1 buff2 buff3 : HistoryBuffer)
  | predictVeloc (bp off : Nat) (buff1 buff2 : HistoryBuffer)
  | xorEncodeRange (bp start stop : Nat) (buffer : HistoryBuffer)

namespace FieldCall

variable {F : Type} [SingleOps F]

/-- The call made of a compressor. -/
def run : FieldCall F → Compressor → Compressor
  | .buildFloatMap bp off, c => { c with bp }.buildFloatMap off
  | .encodeAnalog bp off mult, c => { c with bp }.encodeAnalog off mult
  | .predictAsDifference bp off buffoff buff, c => { c with bp }.predictAsDifference F off buffoff buff
  | .predictJolt bp off buff1 buff2 buff3 buff4, c =>
    { c with bp }.predictJolt F off buff1 buff2 buff3 buff4
  | .predictAccel bp off buff1 buff2 buff3, c => { c with bp }.predictAccel F off buff1 buff2 buff3
  | .predictVeloc bp off buff1 buff2, c => { c with bp }.predictVeloc F off buff1 buff2
  | .xorEncodeRange bp start stop buffer, c => { c with bp }.xorEncodeRange start stop buffer

/-- The addresses a call works on. -/
def span : FieldCall F → Set Nat
  | .buildFloatMap bp off | .encodeAnalog bp off _ | .predictAsDifference bp off _ _
  | .predictJolt bp off _ _ _ _ | .predictAccel bp off _ _ _ | .predictVeloc bp off _ _ =>
    Memory.wordSpan (bp + off)
  | .xorEncodeRange bp start stop _ => {position | bp + start ≤ position ∧ position < bp + stop}

/-- The addresses of another field that a call looks at. -/
def needs : FieldCall F → Set Nat
  | .predictAsDifference bp _ buffoff _ => Memory.wordSpan (bp + buffoff)
  | _ => ∅

/-- The predictions for the events of a player or an item are such calls, each of one word. -/
theorem exists_of_eventPrediction (c : Compressor) (p off : Nat) {predicted : Compressor}
    (named : predicted ∈ [c.predictJoltItem F p off, c.predictAccelPost F p off,
      c.predictAccelItem F p off, c.predictVelocPre F p off, c.predictVelocPost F p off,
      c.predictVelocItem F p off]) :
    ∃ call : FieldCall F, call.run c = predicted ∧
      call.span = Memory.wordSpan (c.bp + off) ∧ call.needs = ∅ := by
  -- Each is the call for its kind of event, with the buffers that the kind has.
  simp only [List.mem_cons, List.not_mem_nil, or_false] at named
  rcases named with rfl | rfl | rfl | rfl | rfl | rfl
  · exact ⟨.predictJolt c.bp off (.xItem p) (.xItem2 p) (.xItem3 p) (.xItem4 p), rfl, rfl, rfl⟩
  · exact ⟨.predictAccel c.bp off (.xPostFrame p) (.xPostFrame2 p) (.xPostFrame3 p), rfl, rfl, rfl⟩
  · exact ⟨.predictAccel c.bp off (.xItem p) (.xItem2 p) (.xItem3 p), rfl, rfl, rfl⟩
  · exact ⟨.predictVeloc c.bp off (.xPreFrame p) (.xPreFrame2 p), rfl, rfl, rfl⟩
  · exact ⟨.predictVeloc c.bp off (.xPostFrame p) (.xPostFrame2 p), rfl, rfl, rfl⟩
  · exact ⟨.predictVeloc c.bp off (.xItem p) (.xItem2 p), rfl, rfl, rfl⟩

/-- The field can be told from what stands for another one. -/
def Admits (call : FieldCall F) (c : Compressor) : Prop :=
  match call with
  | .buildFloatMap bp off =>
    match c.floatToInt (c.rb.word (bp + off)) with
    | some index => index &&& magicFloat = 0
    | none => c.rb.word (bp + off) &&& magicFloat ≠ magicFloat
  | .encodeAnalog bp off mult => AnalogAdmits mult (c.rb.word (bp + off))
  | .predictAsDifference bp off buffoff buff =>
    Markable magicFloat 0x03FF
      (differencePrediction F (c.rb.word (bp + buffoff)) ((c.history buff).word buffoff))
      (c.rb.word (bp + off))
  | .predictJolt bp off buff1 buff2 buff3 buff4 =>
    Markable magicFloat 0xFF ((joltPredictor F off buff1 buff2 buff3 buff4).predict c.history)
      (c.rb.word (bp + off))
  | .predictAccel bp off buff1 buff2 buff3 =>
    Markable magicFloat 0xFF ((accelPredictor F off buff1 buff2 buff3).predict c.history)
      (c.rb.word (bp + off))
  | .predictVeloc bp off buff1 buff2 =>
    Markable magicFloat 0 ((velocPredictor F off buff1 buff2).predict c.history)
      (c.rb.word (bp + off))
  | .xorEncodeRange _ _ _ _ => True

end FieldCall

/-- Everything that predictions depend on is the same on both sides. -/
structure Compressor.Synced (encoder decoder : Compressor) : Prop extends
    RngSynced encoder decoder where
  history : decoder.history = encoder.history
  floats : ∃ seen, encoder.MapsFloats seen ∧ decoder.MapsFloats seen

namespace FieldCall

variable {F : Type} [SingleOps F] {encoder decoder : Compressor}

/-- What both sides hold of a field before the decoder's call. -/
structure Ready (call : FieldCall F) (encoder decoder : Compressor) : Prop where
  encodes : ¬ encoder.decodes
  decodes : decoder.decodes
  synced : encoder.Synced decoder
  fresh : Set.EqOn encoder.wb encoder.rb call.span
  source : Set.EqOn decoder.rb (call.run encoder).wb call.span
  pending : Set.EqOn decoder.wb decoder.rb call.span
  needs : Set.EqOn decoder.wb encoder.rb call.needs

/-- A field comes back exactly if the encoder could handle it, and then both sides stay in step. -/
structure RoundTrips (call : FieldCall F) (encoder decoder : Compressor) : Prop where
  restores : Set.EqOn (call.run decoder).wb encoder.rb call.span ↔ call.Admits encoder
  synced : call.Admits encoder → (call.run encoder).Synced (call.run decoder)

/-- A word is restored exactly if the word written is the plain one. -/
theorem setWord_restores_iff {restored plain : Memory} {address : Nat} {value : Word} :
    Set.EqOn (restored.setWord address value) plain (Memory.wordSpan address) ↔
      value = plain.word address := by
  -- Memories agree on a word exactly if they hold the same one.
  rw [Memory.eqOn_wordSpan_iff, Memory.word_setWord]

/-- Changing the buffers alone keeps the two sides in step. -/
theorem synced_of_history (synced : encoder.Synced decoder) {bp : Nat} {history twin : History}
    {wb wb' : Memory} (same : twin = history) :
    { encoder with bp, history, wb }.Synced { decoder with bp, history := twin, wb := wb' } := by
  obtain ⟨seen, maps, maps'⟩ := synced.floats
  -- The float maps do not depend on the buffers, nor does the generator.
  exact {
    version := synced.version
    rngStart := synced.rngStart
    rng := synced.rng
    history := same
    floats := ⟨seen, maps.transfer rfl rfl rfl, maps'.transfer rfl rfl rfl⟩ }

/-- A field with a predictor comes back exactly if its word can be marked. -/
theorem predictWith_roundTrips (predictor : Predictor) (bp : Nat)
    (synced : encoder.Synced decoder) (encodes : ¬ encoder.decodes) (decodes : decoder.decodes)
    (fresh : encoder.wb.word (bp + predictor.off) = encoder.rb.word (bp + predictor.off))
    (source : decoder.rb.word (bp + predictor.off) =
      ({ encoder with bp }.predictWith predictor).wb.word (bp + predictor.off))
    (pending : decoder.wb.word (bp + predictor.off) = decoder.rb.word (bp + predictor.off)) :
    (Set.EqOn ({ decoder with bp }.predictWith predictor).wb encoder.rb
        (Memory.wordSpan (bp + predictor.off)) ↔
      Markable magicFloat predictor.maxDiff (predictor.predict encoder.history)
        (encoder.rb.word (bp + predictor.off))) ∧
    (Markable magicFloat predictor.maxDiff (predictor.predict encoder.history)
        (encoder.rb.word (bp + predictor.off)) →
      ({ encoder with bp }.predictWith predictor).Synced
        ({ decoder with bp }.predictWith predictor)) := by
  have marked := predictWith_encode (c := { encoder with bp }) encodes predictor fresh
  rw [marked, Memory.word_setWord] at source
  have unmarked := predictWith_decode (c := { decoder with bp }) decodes predictor pending
  have sameHistory := synced.history
  have word : (decoder.wb.setWord (bp + predictor.off) (unmark magicFloat predictor.maxDiff
        (predictor.predict decoder.history) (decoder.rb.word (bp + predictor.off)))).word
        (bp + predictor.off) = encoder.rb.word (bp + predictor.off) ↔
      Markable magicFloat predictor.maxDiff (predictor.predict encoder.history)
        (encoder.rb.word (bp + predictor.off)) := by
    rw [Memory.word_setWord, source, sameHistory]
    exact unmark_mark_iff
  rw [marked, unmarked]
  constructor
  · rw [Memory.eqOn_wordSpan_iff]
    exact word
  · intro markable
    apply synced_of_history synced
    -- What is remembered is the plain word on both sides.
    rw [sameHistory]
    exact predictor.learn_congr (sameHistory ▸ word.mpr markable)

/-- A float of the float maps comes back exactly if its word can be tagged. -/
theorem buildFloatMap_roundTrips (bp off : Nat)
    (ready : (FieldCall.buildFloatMap bp off : FieldCall F).Ready encoder decoder) :
    (FieldCall.buildFloatMap bp off : FieldCall F).RoundTrips encoder decoder := by
  obtain ⟨seen, maps, maps'⟩ := ready.synced.floats
  -- The position of the event does not matter to the maps.
  have here : { encoder with bp }.MapsFloats seen := maps.transfer rfl rfl rfl
  have there : { decoder with bp }.MapsFloats seen := maps'.transfer rfl rfl rfl
  have tagged := buildFloatMap_encode (c := { encoder with bp }) ready.encodes here
    (Memory.word_congr ready.fresh)
  have learned := buildFloatMap_learns (c := { encoder with bp }) ready.encodes off here
  -- The decoder reads the tag that the encoder wrote.
  have source : decoder.rb.word (bp + off) = tag magicFloat seen (encoder.rb.word (bp + off)) := by
    rw [Memory.word_congr ready.source]
    show ({ encoder with bp }.buildFloatMap off).wb.word (bp + off) = _
    rw [tagged.wb, Memory.word_setWord]
  obtain ⟨untagged, learns⟩ := buildFloatMap_decode (c := { decoder with bp }) ready.decodes there
    (Memory.word_congr ready.pending)
  -- An old float is admitted by its index, and a new one by its bits.
  have admits : (FieldCall.buildFloatMap bp off : FieldCall F).Admits encoder ↔
      Taggable magicFloat seen (encoder.rb.word (bp + off)) := by
    simp only [Admits, maps.index, Taggable]
    by_cases old : encoder.rb.word (bp + off) ∈ seen
    · simp only [if_pos old]
    · simp only [if_neg old]
  constructor
  · rw [admits, ← untag_tag_iff maps.distinct (by decide), ← source]
    show Set.EqOn ({ decoder with bp }.buildFloatMap off).wb _ _ ↔ _
    rw [untagged.wb]
    exact setWord_restores_iff
  · intro admitted
    -- Both sides learn the same float.
    exact {
      version := untagged.version.trans (ready.synced.version.trans tagged.version.symm)
      rngStart := untagged.rngStart.trans (ready.synced.rngStart.trans tagged.rngStart.symm)
      rng := fun ancient => untagged.rng.trans
        ((ready.synced.rng (tagged.version ▸ ancient)).trans tagged.rng.symm)
      history := untagged.history.trans (ready.synced.history.trans tagged.history.symm)
      floats := ⟨_, learned, learns _ (admits.mp admitted) source⟩ }

/-- An analog value comes back exactly if its code stands for it. -/
theorem encodeAnalog_roundTrips (bp off : Nat) (mult : F)
    (ready : (FieldCall.encodeAnalog bp off mult).Ready encoder decoder) :
    (FieldCall.encodeAnalog bp off mult).RoundTrips encoder decoder := by
  have encoded := encodeAnalog_encode (c := { encoder with bp }) ready.encodes off mult
    (Memory.word_congr ready.fresh)
  have decoded := encodeAnalog_decode (c := { decoder with bp }) ready.decodes off mult
  -- Nothing was written to the field since, so the decoder still has the code there.
  have source : decoder.wb.word (bp + off) = analogCode mult (encoder.rb.word (bp + off)) := by
    rw [Memory.word_congr ready.pending, Memory.word_congr ready.source]
    show ({ encoder with bp }.encodeAnalog off mult).wb.word (bp + off) = _
    rw [encoded, Memory.word_setWord]
  constructor
  · show Set.EqOn ({ decoder with bp }.encodeAnalog off mult).wb _ _ ↔ AnalogAdmits mult _
    rw [decoded, ← analogDecode_analogCode_iff, ← source]
    exact setWord_restores_iff
  · intro _
    show ({ encoder with bp }.encodeAnalog off mult).Synced ({ decoder with bp }.encodeAnalog off mult)
    rw [encoded, decoded]
    exact synced_of_history ready.synced ready.synced.history

/-- A difference comes back exactly if its word can be marked. -/
theorem predictAsDifference_roundTrips (bp off buffoff : Nat) (buff : HistoryBuffer)
    (ready : (FieldCall.predictAsDifference bp off buffoff buff : FieldCall F).Ready encoder decoder) :
    (FieldCall.predictAsDifference bp off buffoff buff : FieldCall F).RoundTrips encoder decoder := by
  have encoded := predictAsDifference_encode (F := F) (c := { encoder with bp }) ready.encodes off
    buffoff buff (Memory.word_congr ready.fresh)
  have decoded := predictAsDifference_decode (F := F) (c := { decoder with bp }) ready.decodes off
    buffoff buff
  let floatPred := differencePrediction F (encoder.rb.word (bp + buffoff))
    ((encoder.history buff).word buffoff)
  -- The decoder predicts from the other field, which it must have restored before.
  have samePred : differencePrediction F (decoder.wb.word (bp + buffoff))
      ((decoder.history buff).word buffoff) = floatPred := by
    rw [Memory.word_congr ready.needs, ready.synced.history]
  have source : decoder.wb.word (bp + off) =
      mark magicFloat 0x03FF floatPred (encoder.rb.word (bp + off)) := by
    rw [Memory.word_congr ready.pending, Memory.word_congr ready.source]
    show ({ encoder with bp }.predictAsDifference F off buffoff buff).wb.word (bp + off) = _
    rw [encoded, Memory.word_setWord]
  let plain := unmark magicFloat 0x03FF floatPred (decoder.wb.word (bp + off))
  have restores : plain = encoder.rb.word (bp + off) ↔
      Markable magicFloat 0x03FF floatPred (encoder.rb.word (bp + off)) := by
    rw [← unmark_mark_iff, ← source]
  have decodedPlain : { decoder with bp }.predictAsDifference F off buffoff buff =
      let wb := decoder.wb.setWord (bp + off) plain
      { decoder with bp, wb, history := History.copied decoder.history buff buffoff wb (bp + buffoff) } := by
    rw [decoded]
    simp only [samePred]
    rfl
  constructor
  · show Set.EqOn ({ decoder with bp }.predictAsDifference F off buffoff buff).wb _ _ ↔ _
    rw [decodedPlain]
    exact setWord_restores_iff.trans restores
  · intro markable
    show ({ encoder with bp }.predictAsDifference F off buffoff buff).Synced
      ({ decoder with bp }.predictAsDifference F off buffoff buff)
    rw [encoded, decodedPlain]
    apply synced_of_history ready.synced
    -- The other field is remembered in its plain form on both sides.
    rw [ready.synced.history, History.copied, History.copied]
    congr 1
    apply Memory.copy_word_congr
    apply Memory.word_congr
    intro position inside
    by_cases own : position ∈ Memory.wordSpan (bp + off)
    · exact setWord_restores_iff.mpr (restores.mpr markable) own
    · exact (Memory.setWord_of_not_mem own).trans (ready.needs inside)

/-- A range combined with the same bytes twice always comes back. -/
theorem xorEncodeRange_roundTrips (bp start stop : Nat) (buffer : HistoryBuffer)
    (ready : (FieldCall.xorEncodeRange bp start stop buffer : FieldCall F).Ready encoder decoder) :
    (FieldCall.xorEncodeRange bp start stop buffer : FieldCall F).RoundTrips encoder decoder := by
  have encoded := xorEncodeRange_encode (c := { encoder with bp }) ready.encodes start stop buffer
  have decoded := xorEncodeRange_decode (c := { decoder with bp }) ready.decodes start stop buffer
  let wb := { decoder with bp }.xorSpan buffer start (stop - start)
  -- Each byte of the range is combined on both sides with the same byte.
  have restores : ∀ position, bp + start ≤ position → position < bp + start + (stop - start) →
      wb position = encoder.rb position := by
    intro position atLeast below
    have coded : decoder.rb position =
        { encoder with bp }.xorSpan buffer start (stop - start) position := by
      rw [ready.source (x := position) ⟨atLeast, by omega⟩]
      show ({ encoder with bp }.xorEncodeRange start stop buffer).wb position = _
      rw [encoded]
    rw [xorSpan, if_pos ⟨atLeast, below⟩] at coded
    show { decoder with bp }.xorSpan buffer start (stop - start) position = _
    rw [xorSpan, if_pos ⟨atLeast, below⟩]
    show decoder.rb position ^^^ decoder.history buffer (position - bp) = _
    rw [coded, ready.synced.history, BitVec.xor_assoc, BitVec.xor_self, BitVec.xor_zero]
  constructor
  · apply iff_of_true ?_ trivial
    rintro position ⟨atLeast, below⟩
    show ({ decoder with bp }.xorEncodeRange start stop buffer).wb position = _
    rw [decoded]
    exact restores position atLeast (by omega)
  · intro _
    show ({ encoder with bp }.xorEncodeRange start stop buffer).Synced
      ({ decoder with bp }.xorEncodeRange start stop buffer)
    rw [encoded, decoded]
    apply synced_of_history ready.synced
    -- The bytes written by the decoder are remembered like those read by the encoder.
    have remembered : (encoder.history buffer).copy start wb (bp + start) (stop - start) =
        (encoder.history buffer).copy start encoder.rb (bp + start) (stop - start) :=
      Memory.copy_congr fun offset inside => restores _ (by omega) (by omega)
    show Function.update decoder.history buffer
      ((decoder.history buffer).copy start wb (bp + start) (stop - start)) = _
    rw [ready.synced.history, remembered]

/-- A call that works with a predictor makes the round trip of that predictor. -/
theorem Ready.byPredictor {call : FieldCall F} (ready : call.Ready encoder decoder)
    (predictor : Predictor) (bp : Nat) (here : call.span = Memory.wordSpan (bp + predictor.off))
    (runs : ∀ c : Compressor, call.run c = { c with bp }.predictWith predictor)
    (admits : call.Admits encoder ↔ Markable magicFloat predictor.maxDiff
      (predictor.predict encoder.history) (encoder.rb.word (bp + predictor.off))) :
    call.RoundTrips encoder decoder := by
  -- The call is its predictor at its word, so what is ready for the call is ready for the predictor.
  have fresh := here ▸ ready.fresh
  have source := here ▸ ready.source
  have pending := here ▸ ready.pending
  rw [runs] at source
  obtain ⟨restores, synced⟩ := predictWith_roundTrips predictor bp ready.synced ready.encodes
    ready.decodes (Memory.word_congr fresh) (Memory.word_congr source) (Memory.word_congr pending)
  constructor
  · rw [here, runs, admits]
    exact restores
  · rw [runs, runs, admits]
    exact synced

/-- Whatever the call, its field comes back exactly if the encoder could handle it. -/
theorem roundTrips {call : FieldCall F} (ready : call.Ready encoder decoder) :
    call.RoundTrips encoder decoder := by
  -- Three kinds of calls work with a predictor, and the others have laws of their own.
  cases call with
  | buildFloatMap bp off => exact buildFloatMap_roundTrips bp off ready
  | encodeAnalog bp off mult => exact encodeAnalog_roundTrips bp off mult ready
  | predictAsDifference bp off buffoff buff =>
    exact predictAsDifference_roundTrips bp off buffoff buff ready
  | predictJolt bp off buff1 buff2 buff3 buff4 =>
    exact ready.byPredictor (joltPredictor F off buff1 buff2 buff3 buff4) bp rfl
      (fun c => predictJolt_eq (c := { c with bp }) off buff1 buff2 buff3 buff4) Iff.rfl
  | predictAccel bp off buff1 buff2 buff3 =>
    exact ready.byPredictor (accelPredictor F off buff1 buff2 buff3) bp rfl
      (fun c => predictAccel_eq (c := { c with bp }) off buff1 buff2 buff3) Iff.rfl
  | predictVeloc bp off buff1 buff2 =>
    exact ready.byPredictor (velocPredictor F off buff1 buff2) bp rfl
      (fun c => predictVeloc_eq (c := { c with bp }) off buff1 buff2) Iff.rfl
  | xorEncodeRange bp start stop buffer => exact xorEncodeRange_roundTrips bp start stop buffer ready

end FieldCall

end SlippCrunch
