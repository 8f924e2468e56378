import SlippCrunch.Basis.EscapeCode
import SlippCrunch.Slippc.Compressor

/-! What each function of the compressor leaves of one field, in both directions. -/

namespace SlippCrunch

namespace Compressor

open EscapeCode

variable {c : Compressor}

/-- A field that was not predicted well enough is left as it is, which writes nothing new. -/
theorem predictFloat_encode (encodes : ¬ c.decodes) {maxDiff floatTrue floatPred : Word} {off : Nat}
    (fresh : c.wb.word (c.bp + off) = floatTrue) :
    c.predictFloat maxDiff off floatTrue floatPred =
      { c with wb := c.wb.setWord (c.bp + off) (mark magicFloat maxDiff floatPred floatTrue) } := by
  -- What is left as it is stands for itself.
  simp only [predictFloat, if_neg encodes, writeBE4U_eq, mark]
  split
  · rfl
  · rw [← fresh, Memory.setWord_word]

/-- A field that was not marked is left as it is, which writes nothing new. -/
theorem predictFloat_decode (decodes : c.decodes) {maxDiff floatTrue floatPred : Word} {off : Nat}
    (pending : c.wb.word (c.bp + off) = floatTrue) :
    c.predictFloat maxDiff off floatTrue floatPred =
      { c with wb := c.wb.setWord (c.bp + off) (unmark magicFloat maxDiff floatPred floatTrue) } := by
  -- What is left as it is stands for itself.
  simp only [predictFloat, if_pos decodes, writeBE4F_eq, unmark]
  split
  · rfl
  · rw [← pending, Memory.setWord_word]

/-- Predicting a float writes nothing but that float. -/
theorem predictFloat_wb (maxDiff floatTrue floatPred : Word) (off : Nat) :
    ∃ value, c.predictFloat maxDiff off floatTrue floatPred =
      { c with wb := c.wb.setWord (c.bp + off) value } := by
  simp only [predictFloat, writeBE4U_eq, writeBE4F_eq]
  split
  · split
    · exact ⟨_, rfl⟩
    · -- Where nothing is written, the field is as if written again.
      exact ⟨c.wb.word (c.bp + off), by rw [Memory.setWord_word]⟩
  · split
    · exact ⟨_, rfl⟩
    · exact ⟨c.wb.word (c.bp + off), by rw [Memory.setWord_word]⟩

/-- The buffers of earlier events. -/
abbrev History := HistoryBuffer → Memory

/-- Part of a memory copied into one of the buffers. -/
def History.copied (history : History) (buff : HistoryBuffer) (off : Nat) (source : Memory)
    (origin : Nat) : History :=
  Function.update history buff ((history buff).copy off source origin 4)

/-- How a float is predicted from the buffers, and what becomes of them. -/
structure Predictor where
  maxDiff : Word
  off : Nat
  predict : History → Word
  /-- The buffers once the true value stands in a memory at the field's address. -/
  learn : History → Memory → Nat → History
  learn_congr : ∀ {history : History} {source twin : Memory} {origin : Nat},
    source.word origin = twin.word origin → learn history source origin = learn history twin origin

/-- A float worked on with a predictor. -/
def predictWith (c : Compressor) (predictor : Predictor) : Compressor :=
  let done := c.predictFloat predictor.maxDiff predictor.off (c.rb.word (c.bp + predictor.off))
    (predictor.predict c.history)
  { done with history := predictor.learn c.history done.trueBuf (c.bp + predictor.off) }

/-- The predictor by four earlier events. -/
def joltPredictor (F : Type) [SingleOps F] (off : Nat) (buff1 buff2 buff3 buff4 : HistoryBuffer) :
    Predictor where
  maxDiff := 0xFF
  off := off
  predict history := joltPrediction F ((history buff1).word off) ((history buff2).word off)
    ((history buff3).word off) ((history buff4).word off)
  learn history source origin :=
    let history := History.copied history buff4 off (history buff3) off
    let history := History.copied history buff3 off (history buff2) off
    let history := History.copied history buff2 off (history buff1) off
    History.copied history buff1 off source origin
  learn_congr same := by simp only [History.copied, Memory.copy_word_congr same]

/-- The predictor by three earlier events. -/
def accelPredictor (F : Type) [SingleOps F] (off : Nat) (buff1 buff2 buff3 : HistoryBuffer) :
    Predictor where
  maxDiff := 0xFF
  off := off
  predict history := accelPrediction F ((history buff1).word off) ((history buff2).word off)
    ((history buff3).word off)
  learn history source origin :=
    let history := History.copied history buff3 off (history buff2) off
    let history := History.copied history buff2 off (history buff1) off
    History.copied history buff1 off source origin
  learn_congr same := by simp only [History.copied, Memory.copy_word_congr same]

/-- The predictor by two earlier events, which has to be exact. -/
def velocPredictor (F : Type) [SingleOps F] (off : Nat) (buff1 buff2 : HistoryBuffer) :
    Predictor where
  maxDiff := 0
  off := off
  predict history := velocPrediction F ((history buff1).word off) ((history buff2).word off)
  learn history source origin :=
    let history := History.copied history buff2 off (history buff1) off
    History.copied history buff1 off source origin
  learn_congr same := by simp only [History.copied, Memory.copy_word_congr same]

variable {F : Type} [SingleOps F]

/-- Predicting from four buffers is working with their predictor. -/
theorem predictJolt_eq (off : Nat) (buff1 buff2 buff3 buff4 : HistoryBuffer) :
    c.predictJolt F off buff1 buff2 buff3 buff4 =
      c.predictWith (joltPredictor F off buff1 buff2 buff3 buff4) := by
  simp only [predictJolt, predictWith, joltPredictor, readBE4F_eq]
  -- What becomes of the buffers is the same, whatever value was written.
  obtain ⟨value, written⟩ := predictFloat_wb (c := c) 0xFF (c.rb.word (c.bp + off))
    (joltPrediction F ((c.history buff1).word off) ((c.history buff2).word off)
      ((c.history buff3).word off) ((c.history buff4).word off)) off
  rw [written]
  rfl

/-- Predicting from three buffers is working with their predictor. -/
theorem predictAccel_eq (off : Nat) (buff1 buff2 buff3 : HistoryBuffer) :
    c.predictAccel F off buff1 buff2 buff3 =
      c.predictWith (accelPredictor F off buff1 buff2 buff3) := by
  -- Both write the field and remember it in the same buffers.
  simp only [predictAccel, predictWith, accelPredictor, readBE4F_eq]
  obtain ⟨value, written⟩ := predictFloat_wb (c := c) 0xFF (c.rb.word (c.bp + off))
    (accelPrediction F ((c.history buff1).word off) ((c.history buff2).word off)
      ((c.history buff3).word off)) off
  rw [written]
  rfl

/-- No difference is allowed exactly if the words are equal. -/
theorem xor_le_zero_iff (first second : Word) : first ^^^ second ≤ 0 ↔ first = second := by
  constructor
  · intro none
    -- The difference is compared as a number, and no number is below zero.
    have zero : first ^^^ second = 0 := by
      apply BitVec.eq_of_toNat_eq
      have bound : (first ^^^ second).toNat ≤ 0 := none
      exact Nat.le_zero.mp bound
    exact BitVec.xor_eq_zero_iff.mp zero
  · rintro rfl
    rw [BitVec.xor_self]
    exact BitVec.le_refl _

/-- With no difference allowed the tests of a prediction are tests for equality. -/
theorem predictFloat_zero (off : Nat) (floatTrue floatPred : Word) :
    c.predictFloat 0 off floatTrue floatPred =
      if c.decodes then
        if floatTrue = magicFloat then { c with wb := writeBE4F floatPred c.wb (c.bp + off) } else c
      else if floatPred ^^^ floatTrue = 0 then
        { c with wb := writeBE4U magicFloat c.wb (c.bp + off) }
      else c := by
  have plain : ∀ value : Word, value ^^^ 0 = value := fun _ => BitVec.xor_zero
  simp only [predictFloat, xor_le_zero_iff]
  by_cases decodes : c.decodes
  · rw [if_pos decodes, if_pos decodes]
    -- A mark without a difference is the prediction itself.
    by_cases marked : floatTrue = magicFloat
    · rw [if_pos marked, if_pos marked, marked, BitVec.xor_self]
      exact congrArg (fun value => { c with wb := writeBE4F value c.wb (c.bp + off) }) (plain _)
    · rw [if_neg marked, if_neg marked]
  · rw [if_neg decodes, if_neg decodes]
    by_cases same : floatPred = floatTrue
    · have none : floatTrue ^^^ floatTrue = 0 := BitVec.xor_self
      rw [same, if_pos rfl, if_pos none, none, plain]
    · have some : floatPred ^^^ floatTrue ≠ 0 := fun none => same (BitVec.xor_eq_zero_iff.mp none)
      rw [if_neg same, if_neg some]

/-- Predicting from two buffers is working with their predictor. -/
theorem predictVeloc_eq (off : Nat) (buff1 buff2 : HistoryBuffer) :
    c.predictVeloc F off buff1 buff2 = c.predictWith (velocPredictor F off buff1 buff2) := by
  dsimp only [predictVeloc]
  -- The source tests for equality here, which is a prediction with no difference allowed.
  rw [← predictFloat_zero, predictWith]
  simp only [velocPredictor, readBE4F_eq]
  obtain ⟨value, written⟩ := predictFloat_wb (c := c) 0 (c.rb.word (c.bp + off))
    (velocPrediction F ((c.history buff1).word off) ((c.history buff2).word off)) off
  rw [written]
  rfl

/-- The direction of the work does not depend on what was written. -/
theorem trueBuf_written (wb : Memory) : { c with wb }.trueBuf = if c.decodes then wb else c.rb := rfl

/-- Encoding with a predictor marks the float and remembers it. -/
theorem predictWith_encode (encodes : ¬ c.decodes) (predictor : Predictor)
    (fresh : c.wb.word (c.bp + predictor.off) = c.rb.word (c.bp + predictor.off)) :
    c.predictWith predictor =
      let coded := mark magicFloat predictor.maxDiff (predictor.predict c.history)
        (c.rb.word (c.bp + predictor.off))
      { c with
        wb := c.wb.setWord (c.bp + predictor.off) coded
        history := predictor.learn c.history c.rb (c.bp + predictor.off) } := by
  -- An encoder remembers what it read, which is the plain word.
  simp only [predictWith, predictFloat_encode encodes fresh, trueBuf_written, if_neg encodes]

/-- Decoding with a predictor takes the mark off and remembers the result. -/
theorem predictWith_decode (decodes : c.decodes) (predictor : Predictor)
    (pending : c.wb.word (c.bp + predictor.off) = c.rb.word (c.bp + predictor.off)) :
    c.predictWith predictor =
      let wb := c.wb.setWord (c.bp + predictor.off) (unmark magicFloat predictor.maxDiff
        (predictor.predict c.history) (c.rb.word (c.bp + predictor.off)))
      { c with wb, history := predictor.learn c.history wb (c.bp + predictor.off) } := by
  -- A decoder remembers what it wrote, which is the word restored.
  simp only [predictWith, predictFloat_decode decodes pending, trueBuf_written, if_pos decodes]

/-- The float maps hold the floats of a list, each under its place in it. -/
structure MapsFloats (c : Compressor) (seen : List Word) : Prop where
  distinct : seen.Nodup
  count : c.numFloats = BitVec.ofNat 32 seen.length
  index : ∀ float, c.floatToInt float =
    if float ∈ seen then some (BitVec.ofNat 32 (seen.idxOf float)) else none
  float : ∀ index, c.intToFloat index = seen[index.toNat]?

/-- The float maps depend on nothing else in the state. -/
theorem MapsFloats.transfer {seen : List Word} {done : Compressor} (maps : c.MapsFloats seen)
    (number : done.numFloats = c.numFloats) (floats : done.floatToInt = c.floatToInt)
    (ints : done.intToFloat = c.intToFloat) : done.MapsFloats seen where
  distinct := maps.distinct
  count := number ▸ maps.count
  index := floats ▸ maps.index
  float := ints ▸ maps.float

/-- A float entered under the next number is the last one of the list. -/
theorem MapsFloats.append {seen : List Word} {float : Word} (maps : c.MapsFloats seen)
    (new : float ∉ seen) {counters : Word → Option Word} {wb : Memory} :
    { c with
      floatToInt := Function.update c.floatToInt float (some c.numFloats)
      intToFloat := Function.update c.intToFloat c.numFloats (some float)
      intToFloatC := counters
      numFloats := c.numFloats + 1
      wb }.MapsFloats (seen ++ [float]) := by
  -- As long as a float is missing the numbers do not wrap around.
  have room := length_lt_of_not_mem maps.distinct new
  have number : (BitVec.ofNat 32 seen.length).toNat = seen.length := by
    rw [BitVec.toNat_ofNat, Nat.mod_eq_of_lt room]
  constructor
  · exact List.nodup_append.mpr ⟨maps.distinct, List.nodup_singleton _, by
      rintro first member second last same
      rw [List.mem_singleton.mp last] at same
      exact new (same ▸ member)⟩
  · show c.numFloats + 1 = _
    rw [maps.count, List.length_append, List.length_singleton, BitVec.ofNat_add]
    rfl
  · intro other
    show Function.update c.floatToInt float (some c.numFloats) other = _
    by_cases same : other = float
    · subst same
      rw [Function.update_self, if_pos (by simp), List.idxOf_append_of_notMem new, maps.count]
      simp
    · rw [Function.update_of_ne same, maps.index]
      by_cases old : other ∈ seen
      · rw [if_pos old, if_pos (by simp [old]), List.idxOf_append_of_mem old]
      · rw [if_neg old, if_neg (by simp [old, same])]
  · intro index
    show Function.update c.intToFloat c.numFloats (some float) index = _
    by_cases same : index = c.numFloats
    · subst same
      rw [Function.update_self, maps.count, number, List.getElem?_concat_length]
    · rw [Function.update_of_ne same, maps.float]
      have elsewhere : index.toNat ≠ seen.length := by
        intro equal
        apply same
        apply BitVec.eq_of_toNat_eq
        rw [maps.count, number, equal]
      rcases Nat.lt_or_gt_of_ne elsewhere with before | beyond
      · rw [List.getElem?_append_left before]
      · rw [List.getElem?_eq_none (by omega), List.getElem?_eq_none (by simp; omega)]

/-- The fields of the state that the float maps change. -/
structure FloatMapStep (c done : Compressor) (off : Nat) (coded : Word) : Prop where
  wb : done.wb = c.wb.setWord (c.bp + off) coded
  history : done.history = c.history
  version : done.version = c.version
  rng : done.rng = c.rng
  rngStart : done.rngStart = c.rngStart

/-- Encoding with the float maps learns the float. -/
theorem buildFloatMap_learns (encodes : ¬ c.decodes) {seen : List Word} (off : Nat)
    (maps : c.MapsFloats seen) :
    (c.buildFloatMap off).MapsFloats (learn seen (c.rb.word (c.bp + off))) := by
  -- A float that was seen adds nothing, and a new one gets the next index.
  simp only [buildFloatMap, if_neg encodes, readBE4U_eq, writeBE4U_eq, maps.index]
  by_cases old : c.rb.word (c.bp + off) ∈ seen
  · rw [if_pos old, learn, if_pos old]
    exact maps.transfer rfl rfl rfl
  · rw [if_neg old, learn, if_neg old]
    exact maps.append old

/-- Encoding with the float maps tags the float. -/
theorem buildFloatMap_encode (encodes : ¬ c.decodes) {seen : List Word} {off : Nat}
    (maps : c.MapsFloats seen) (fresh : c.wb.word (c.bp + off) = c.rb.word (c.bp + off)) :
    FloatMapStep c (c.buildFloatMap off) off (tag magicFloat seen (c.rb.word (c.bp + off))) := by
  simp only [buildFloatMap, if_neg encodes, readBE4U_eq, writeBE4U_eq, maps.index]
  by_cases old : c.rb.word (c.bp + off) ∈ seen
  · rw [if_pos old, tag, if_pos old]
    exact ⟨rfl, rfl, rfl, rfl, rfl⟩
  · -- A new float stays in the field as it is.
    rw [if_neg old, tag, if_neg old, ← fresh]
    exact ⟨(Memory.setWord_word _ _).symm, rfl, rfl, rfl, rfl⟩

/-- Decoding with the float maps takes the tag off and learns what the encoder learned. -/
theorem buildFloatMap_decode (decodes : c.decodes) {seen : List Word} {off : Nat}
    (maps : c.MapsFloats seen) (pending : c.wb.word (c.bp + off) = c.rb.word (c.bp + off)) :
    FloatMapStep c (c.buildFloatMap off) off (untag magicFloat seen (c.rb.word (c.bp + off))) ∧
      ∀ plain, Taggable magicFloat seen plain →
        c.rb.word (c.bp + off) = tag magicFloat seen plain →
        (c.buildFloatMap off).MapsFloats (learn seen plain) := by
  have complement : magicFloat ^^^ 0xFFFFFFFF = ~~~magicFloat := by decide
  simp only [buildFloatMap, if_pos decodes, readBE4U_eq, writeBE4U_eq, maps.float, complement]
  by_cases marked : c.rb.word (c.bp + off) &&& magicFloat = magicFloat
  · rw [if_neg (not_not.mpr marked)]
    refine ⟨⟨?_, rfl, rfl, rfl, rfl⟩, ?_⟩
    · rw [untag, if_pos marked]
    · intro plain taggable isTag
      have old : plain ∈ seen := by
        by_contra new
        obtain ⟨kept, unmarked⟩ := tag_of_new new taggable
        exact unmarked (kept ▸ isTag ▸ marked)
      -- Entering again what was looked up changes nothing.
      have index := (index_of_tag maps.distinct old taggable).2
      rw [← isTag] at index
      have found : seen[(c.rb.word (c.bp + off) &&& ~~~magicFloat).toNat]? = some plain := by
        rw [index, List.getElem?_eq_getElem (List.idxOf_lt_length_iff.mpr old), List.getElem_idxOf]
      rw [learn, if_pos old]
      refine ⟨maps.distinct, maps.count, maps.index, fun other => ?_⟩
      show Function.update c.intToFloat (c.rb.word (c.bp + off) &&& ~~~magicFloat) _ other = _
      by_cases same : other = c.rb.word (c.bp + off) &&& ~~~magicFloat
      · rw [same, Function.update_self, found, Option.getD_some]
      · rw [Function.update_of_ne same, maps.float]
  · rw [if_pos marked]
    refine ⟨⟨?_, rfl, rfl, rfl, rfl⟩, ?_⟩
    · rw [untag, if_neg marked, ← pending, Memory.setWord_word]
    · intro plain taggable isTag
      have new : plain ∉ seen := by
        intro old
        exact marked (isTag ▸ (index_of_tag maps.distinct old taggable).1)
      rw [isTag, (tag_of_new new taggable).1, learn, if_neg new]
      exact maps.append new

/-- What an encoder leaves of an analog value. -/
def analogCode (mult : F) (plain : Word) : Word :=
  if analogFloat mult (analogByte mult plain) = plain then (analogByte mult plain).setWidth 32
  else plain

/-- What a decoder makes of it. -/
def analogDecode (mult : F) (coded : Word) : Word :=
  if coded &&& exponentBits ≠ 0 then coded else analogFloat mult (coded.setWidth 8)

/-- An analog value is some byte's, or has an exponent, or is the one its own last byte stands for. -/
def AnalogAdmits (mult : F) (plain : Word) : Prop :=
  analogFloat mult (analogByte mult plain) = plain ∨ plain &&& exponentBits ≠ 0 ∨
    analogFloat mult (plain.setWidth 8) = plain

instance (mult : F) (plain : Word) : Decidable (AnalogAdmits mult plain) :=
  inferInstanceAs (Decidable (_ ∨ _ ∨ _))

/-- A byte widened to a word has no exponent. -/
theorem setWidth_and_exponent (byte : Byte) : byte.setWidth 32 &&& exponentBits = 0 := by
  apply BitVec.eq_of_getLsbD_eq
  intro bit inside
  rw [BitVec.getLsbD_and, BitVec.getLsbD_setWidth]
  by_cases low : bit < 8
  · -- The exponent has none of the last eight bits.
    have none : exponentBits.getLsbD bit = false := by
      rcases bit with _ | _ | _ | _ | _ | _ | _ | _ | bit <;> first | rfl | omega
    rw [none, Bool.and_false]
    simp
  · rw [BitVec.getLsbD_of_ge byte bit (by omega)]
    simp

/-- Exactly the admitted analog values come back. -/
theorem analogDecode_analogCode_iff (mult : F) (plain : Word) :
    analogDecode mult (analogCode mult plain) = plain ↔ AnalogAdmits mult plain := by
  by_cases stands : analogFloat mult (analogByte mult plain) = plain
  · -- The byte is recognised by its missing exponent, and it stands for the value.
    rw [analogCode, if_pos stands, analogDecode, if_neg (not_not.mpr (setWidth_and_exponent _))]
    have narrowed : ((analogByte mult plain).setWidth 32).setWidth 8 = analogByte mult plain := by
      rw [BitVec.setWidth_setWidth_of_le _ (by omega), BitVec.setWidth_eq]
    rw [narrowed]
    exact iff_of_true stands (.inl stands)
  · rw [analogCode, if_neg stands, analogDecode]
    -- A value that no byte stands for is kept, and is taken for a byte if it has no exponent.
    by_cases exponent : plain &&& exponentBits ≠ 0
    · rw [if_pos exponent]
      exact iff_of_true rfl (.inr (.inl exponent))
    · rw [if_neg exponent]
      constructor
      · intro same
        exact .inr (.inr same)
      · rintro (is | has | same)
        · exact absurd is stands
        · exact absurd has exponent
        · exact same

/-- Encoding an analog value leaves its code. -/
theorem encodeAnalog_encode (encodes : ¬ c.decodes) (off : Nat) (mult : F)
    (fresh : c.wb.word (c.bp + off) = c.rb.word (c.bp + off)) :
    c.encodeAnalog off mult =
      { c with wb := c.wb.setWord (c.bp + off) (analogCode mult (c.rb.word (c.bp + off))) } := by
  simp only [encodeAnalog, and_false, if_false, readBE4U_eq, writeBE4U_eq, encodes]
  rw [analogCode]
  -- A value that its byte does not stand for stays in the field.
  split
  · rfl
  · rw [← fresh, Memory.setWord_word]

/-- Decoding an analog value leaves what its code stands for. -/
theorem encodeAnalog_decode (decodes : c.decodes) (off : Nat) (mult : F) :
    c.encodeAnalog off mult =
      { c with wb := c.wb.setWord (c.bp + off) (analogDecode mult (c.wb.word (c.bp + off))) } := by
  -- A code that stands for itself is left as it is.
  simp only [encodeAnalog, and_true, if_true, readBE4U_eq, writeBE4F_eq, decodes]
  rw [analogDecode]
  split
  · rw [Memory.setWord_word]
  · rfl

/-- The difference of a field to its earlier value, as a prediction of another field. -/
def differencePrediction (F : Type) [SingleOps F] (now before : Word) : Word :=
  SingleOps.toBits (SingleOps.sub (SingleOps.ofBits now : F) (SingleOps.ofBits before))

/-- Encoding as a difference marks the float and remembers the other field. -/
theorem predictAsDifference_encode (encodes : ¬ c.decodes) (off buffoff : Nat) (buff : HistoryBuffer)
    (fresh : c.wb.word (c.bp + off) = c.rb.word (c.bp + off)) :
    c.predictAsDifference F off buffoff buff =
      let floatPred := differencePrediction F (c.rb.word (c.bp + buffoff))
        ((c.history buff).word buffoff)
      let coded := mark magicFloat 0x03FF floatPred (c.rb.word (c.bp + off))
      { c with
        wb := c.wb.setWord (c.bp + off) coded
        history := History.copied c.history buff buffoff c.rb (c.bp + buffoff) } := by
  -- An encoder takes both fields from what it reads.
  have source : c.trueBuf = c.rb := if_neg encodes
  simp only [predictAsDifference, source, readBE4F_eq, predictFloat_encode encodes fresh, remember,
    trueBuf_written, if_neg encodes]
  rfl

/-- Decoding as a difference takes the mark off and remembers the other field. -/
theorem predictAsDifference_decode (decodes : c.decodes) (off buffoff : Nat)
    (buff : HistoryBuffer) :
    c.predictAsDifference F off buffoff buff =
      let floatPred := differencePrediction F (c.wb.word (c.bp + buffoff))
        ((c.history buff).word buffoff)
      let plain := unmark magicFloat 0x03FF floatPred (c.wb.word (c.bp + off))
      let wb := c.wb.setWord (c.bp + off) plain
      { c with wb, history := History.copied c.history buff buffoff wb (c.bp + buffoff) } := by
  -- A decoder takes both fields from what it has written.
  have source : c.trueBuf = c.wb := if_pos decodes
  simp only [predictAsDifference, source, readBE4F_eq, predictFloat_decode decodes rfl, remember,
    trueBuf_written, if_pos decodes]
  rfl

/-- The bytes of a memory combined with those of a buffer over a range. -/
def xorSpan (c : Compressor) (buffer : HistoryBuffer) (start length : Nat) : Memory :=
  fun position =>
    if c.bp + start ≤ position ∧ position < c.bp + start + length then
      c.rb position ^^^ c.history buffer (position - c.bp)
    else c.wb position

/-- One byte more of a range combined. -/
theorem xorSpan_succ (buffer : HistoryBuffer) (start length : Nat) :
    c.xorSpan buffer start (length + 1) =
      Function.update (c.xorSpan buffer start length) (c.bp + (start + length))
        (c.rb (c.bp + (start + length)) ^^^ c.history buffer (start + length)) := by
  funext position
  simp only [xorSpan, Function.update_apply]
  -- The byte behind the range is the only one that changes.
  by_cases last : position = c.bp + (start + length)
  · rw [if_pos last, if_pos (by omega), last, Nat.add_sub_cancel_left]
  · rw [if_neg last]
    by_cases inside : c.bp + start ≤ position ∧ position < c.bp + start + length
    · rw [if_pos inside, if_pos (by omega)]
    · rw [if_neg inside, if_neg (by omega)]

/-- Combining a range of bytes writes that range and remembers the true bytes. -/
theorem xorEncodeRange_eq (start length : Nat) (buffer : HistoryBuffer) :
    c.xorEncodeRange start (start + length) buffer =
      let written := { c with wb := c.xorSpan buffer start length }
      let remembered := (c.history buffer).copy start written.trueBuf (c.bp + start) length
      { written with history := Function.update c.history buffer remembered } := by
  rw [xorEncodeRange, Nat.add_sub_cancel_left]
  induction length with
  | zero =>
    have nothing : c.xorSpan buffer start 0 = c.wb := funext fun position => if_neg (by omega)
    simp only [List.range'_zero, List.foldl_nil, Memory.copy_zero, Function.update_eq_self, nothing]
  | succ length ih =>
    -- The buffer is read behind the bytes remembered so far, and the true byte is added to them.
    rw [List.range'_concat, List.foldl_append, ih, List.foldl_cons, List.foldl_nil, Nat.one_mul]
    have unread : ∀ source : Memory,
        (c.history buffer).copy start source (c.bp + start) length (start + length) =
          c.history buffer (start + length) :=
      fun source => Memory.copy_outside (.inr (Nat.le_refl _))
    have settled : (c.history buffer).copy start
        { c with wb := c.xorSpan buffer start length }.trueBuf (c.bp + start) length =
        (c.history buffer).copy start
          { c with wb := c.xorSpan buffer start (length + 1) }.trueBuf (c.bp + start) length := by
      apply Memory.copy_congr
      intro offset inside
      rw [trueBuf_written, trueBuf_written, xorSpan_succ]
      by_cases decodes : c.decodes
      · rw [if_pos decodes, if_pos decodes, Function.update_of_ne (by omega)]
      · rw [if_neg decodes, if_neg decodes]
    simp only [xorEncodeByte, Function.update_self, Function.update_idem, unread, Memory.copy_succ,
      settled, xorSpan_succ, ← Nat.add_assoc]
    rfl

/-- A range whose end is before its start is as empty as one that ends at its start. -/
theorem xorEncodeRange_length (start stop : Nat) (buffer : HistoryBuffer) :
    c.xorEncodeRange start stop buffer =
      c.xorEncodeRange start (start + (stop - start)) buffer := by
  rw [xorEncodeRange, xorEncodeRange, Nat.add_sub_cancel_left]

/-- Encoding a range combines it and remembers the bytes that were read. -/
theorem xorEncodeRange_encode (encodes : ¬ c.decodes) (start stop : Nat) (buffer : HistoryBuffer) :
    c.xorEncodeRange start stop buffer =
      let remembered := (c.history buffer).copy start c.rb (c.bp + start) (stop - start)
      { c with
        wb := c.xorSpan buffer start (stop - start)
        history := Function.update c.history buffer remembered } := by
  -- An encoder remembers what it read, which are the plain bytes.
  rw [xorEncodeRange_length, xorEncodeRange_eq]
  simp only [trueBuf_written, if_neg encodes]

/-- Decoding a range combines it and remembers the bytes that were written. -/
theorem xorEncodeRange_decode (decodes : c.decodes) (start stop : Nat) (buffer : HistoryBuffer) :
    c.xorEncodeRange start stop buffer =
      let wb := c.xorSpan buffer start (stop - start)
      let remembered := (c.history buffer).copy start wb (c.bp + start) (stop - start)
      { c with wb, history := Function.update c.history buffer remembered } := by
  -- A decoder remembers what it wrote, which are the bytes restored.
  rw [xorEncodeRange_length, xorEncodeRange_eq]
  simp only [trueBuf_written, if_pos decodes]

end Compressor

end SlippCrunch
