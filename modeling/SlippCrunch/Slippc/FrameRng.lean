import SlippCrunch.Basis.CongruentialGenerator
import SlippCrunch.Basis.LockstepCodec
import SlippCrunch.Slippc.Compressor

/-! Frame numbers and RNG seeds come back from their differences and their numbers of rolls. -/

namespace SlippCrunch

namespace Compressor

/-- A remainder towards zero is the same word as what it is the remainder of. -/
theorem ofInt_tmod (value : Int) : BitVec.ofInt 32 (value.tmod 4294967296) = BitVec.ofInt 32 value := by
  -- The remainder differs from the value by a multiple of the number of words.
  apply BitVec.eq_of_toInt_eq
  rw [BitVec.toInt_ofInt, BitVec.toInt_ofInt]
  have split := Int.mul_tdiv_add_tmod value 4294967296
  generalize value.tdiv 4294967296 = quotient at split
  generalize value.tmod 4294967296 = rest at split ⊢
  subst split
  rw [Int.add_comm, Int.mul_comm]
  exact (Int.add_mul_bmod_self_right rest quotient _).symm

/-- The older generator is a linear congruential one. -/
theorem rollRNGLegacy_eq : rollRNGLegacy = CongruentialGenerator.step 214013 2531011 := by
  -- The remainder towards zero is lost in a word, where sums and products wrap around.
  funext seed
  rw [rollRNGLegacy, ofInt_tmod, BitVec.ofInt_add, BitVec.ofInt_mul, BitVec.ofInt_toInt]
  rfl

/-- The older generator meets the conditions of a full period. -/
theorem legacy_fullPeriod :
    CongruentialGenerator.FullPeriod (214013 : Word) 2531011 := ⟨by decide, by decide⟩

/-- A search that has enough fuel ends at the first roll that meets the seed. -/
theorem rollUntil_eq {seed rng rolls : Word} {count fuel : Nat} (enough : count < fuel)
    (met : rollRNGLegacy^[count] rng = seed)
    (first : ∀ earlier < count, rollRNGLegacy^[earlier] rng ≠ seed) :
    rollUntil seed fuel rng rolls = some (seed, rolls + BitVec.ofNat 32 count) := by
  -- Every roll uses up one unit of fuel and brings the seed one roll nearer.
  induction count generalizing fuel rng rolls with
  | zero =>
    obtain ⟨fuel, rfl⟩ := Nat.exists_eq_succ_of_ne_zero (show fuel ≠ 0 by omega)
    have same : rng = seed := met
    simp [rollUntil, same]
  | succ count ih =>
    obtain ⟨fuel, rfl⟩ := Nat.exists_eq_succ_of_ne_zero (show fuel ≠ 0 by omega)
    have differs : rng ≠ seed := first 0 (by omega)
    have later : ∀ earlier < count, rollRNGLegacy^[earlier] (rollRNGLegacy rng) ≠ seed := by
      intro earlier before
      rw [← Function.iterate_succ_apply]
      exact first (earlier + 1) (by omega)
    rw [rollUntil, if_pos differs, ih (by omega) met later]
    rw [BitVec.ofNat_add, BitVec.add_assoc, BitVec.add_comm 1]
    rfl

/-- Every seed is met by a search from every other, and the count it finds rolls back to the seed. -/
theorem rollUntil_total (seed rng : Word) : ∃ rolls : Word,
    rollUntil seed (2 ^ 32) rng 0 = some (seed, rolls) ∧ rollRNGLegacy^[rolls.toNat] rng = seed := by
  -- The generator runs through all seeds, so the least number of rolls is below their number.
  obtain ⟨count, ⟨inside, met⟩, only⟩ := legacy_fullPeriod.existsUnique_steps rng seed
  rw [← rollRNGLegacy_eq] at met only
  have first : ∀ earlier < count, rollRNGLegacy^[earlier] rng ≠ seed := by
    intro earlier before early
    have := only earlier ⟨by omega, early⟩
    omega
  refine ⟨BitVec.ofNat 32 count, ?_, ?_⟩
  · rw [rollUntil_eq inside met first]
    simp
  · rw [BitVec.toNat_ofNat, Nat.mod_eq_of_lt inside]
    exact met

/-- The count found is the only one below the number of seeds that rolls back to the seed. -/
theorem rollUntil_only (seed rng : Word) : ∃ rolls : Word,
    rollUntil seed (2 ^ 32) rng 0 = some (seed, rolls) ∧
      ∀ count < 2 ^ 32, rollRNGLegacy^[count] rng = seed ↔ count = rolls.toNat := by
  -- The count that was found is one of those below the period, of which just one fits.
  obtain ⟨rolls, found, met⟩ := rollUntil_total seed rng
  obtain ⟨steps, _, only⟩ := legacy_fullPeriod.existsUnique_steps rng seed
  rw [← rollRNGLegacy_eq] at only
  refine ⟨rolls, found, fun count inside => ⟨fun same => ?_, fun same => same ▸ met⟩⟩
  calc count = steps := only count ⟨inside, same⟩
    _ = rolls.toNat := (only rolls.toNat ⟨rolls.isLt, met⟩).symm

/-- A bounded search stays within its bound, and has met the target if it ended before. -/
theorem countRolls_spec (roll : Word → Word) (target : Word) (left : Nat) (startRng : Word)
    (rolls : Nat) : ∃ count ≤ left, countRolls roll target left startRng rolls = rolls + count ∧
      (count < left → roll^[count] startRng = target) := by
  -- Every roll uses up one that is left, until the target is met.
  induction left generalizing startRng rolls with
  | zero => exact ⟨0, le_refl 0, rfl, fun none => absurd none (by omega)⟩
  | succ left ih =>
    by_cases differs : startRng ≠ target
    · obtain ⟨count, bounded, counted, met⟩ := ih (roll startRng) (rolls + 1)
      refine ⟨count + 1, by omega, ?_, ?_⟩
      · rw [countRolls, if_pos differs, counted]
        omega
      · intro early
        exact met (by omega)
    · refine ⟨0, by omega, ?_, ?_⟩
      · rw [countRolls, if_neg differs, Nat.add_zero]
      · intro _
        exact not_not.mp differs

/-- The flag of a frame number is the difference of its first two bits. -/
theorem checkRawRNG_eq (frame : Word) :
    checkRawRNG frame = (frame.getLsbD 31 ^^ frame.getLsbD 30) := by
  -- A word that is shifted and masked by one is a single bit.
  have last : ∀ shift < 32, (frame.sshiftRight shift &&& 0x01).setWidth 8 =
      (BitVec.ofBool (frame.getLsbD shift)).setWidth 8 := by
    intro shift small
    rw [show (0x01 : Word) = 1#32 from rfl, BitVec.and_one_eq_setWidth_ofBool_getLsbD,
      BitVec.getLsbD_sshiftRight, Nat.add_zero, if_pos small, BitVec.setWidth_setWidth_of_le _ (by omega)]
    rfl
  simp only [checkRawRNG, last 31 (by omega), last 30 (by omega)]
  cases frame.getLsbD 31 <;> cases frame.getLsbD 30 <;> rfl

/-- An unflagged frame number is taken as it is. -/
theorem withoutRawRNG_of_unflagged {frame : Word} (unflagged : checkRawRNG frame = false) :
    withoutRawRNG frame = frame := by
  rw [withoutRawRNG, unflagged, if_neg Bool.false_ne_true]

/-- Exactly the frame numbers of thirty bits and a sign are unflagged. -/
theorem checkRawRNG_eq_false_iff (frame : Word) :
    checkRawRNG frame = false ↔ -2 ^ 30 ≤ frame.toInt ∧ frame.toInt < 2 ^ 30 := by
  have range := frame.isLt
  rw [checkRawRNG_eq, BitVec.toInt_eq_toNat_cond]
  simp only [BitVec.getLsbD, Nat.testBit_eq_decide_div_mod_eq, bne_eq_false_iff_eq, decide_eq_decide]
  -- The first bit is the sign, and the second one tells the size.
  split
  · omega
  · push_cast
    omega

/-- Flipping the second bit of a frame number flips its flag. -/
theorem checkRawRNG_xor (frame : Word) :
    checkRawRNG (frame ^^^ rawRngMask) = !checkRawRNG frame := by
  -- Of the two bits compared only the second is flipped.
  simp only [checkRawRNG_eq, BitVec.getLsbD_xor]
  have second : rawRngMask.getLsbD 30 = true := rfl
  have first : rawRngMask.getLsbD 31 = false := rfl
  rw [first, second]
  cases frame.getLsbD 31 <;> cases frame.getLsbD 30 <;> rfl

/-- The flag bit flipped twice is as it was. -/
theorem xor_mask_mask (frame : Word) : frame ^^^ rawRngMask ^^^ rawRngMask = frame := by
  rw [BitVec.xor_assoc, BitVec.xor_self, BitVec.xor_zero]

end Compressor

/-- Where an event holds its frame number and the RNG seed beside it. -/
structure FrameField where
  bp : Nat
  frameoff : Nat
  rngoff : Nat
  apart : frameoff + 4 ≤ rngoff ∨ rngoff + 4 ≤ frameoff

namespace FrameField

variable (field : FrameField)

/-- The address of the frame number. -/
def frameAddr : Nat := field.bp + field.frameoff

/-- The address of the RNG seed. -/
def rngAddr : Nat := field.bp + field.rngoff

/-- The bytes of both. -/
def span : Set Nat := Memory.wordSpan field.frameAddr ∪ Memory.wordSpan field.rngAddr

/-- The frame number and the seed share no byte. -/
theorem disjoint : Disjoint (Memory.wordSpan field.frameAddr) (Memory.wordSpan field.rngAddr) := by
  -- The two offsets are four bytes apart.
  apply Memory.wordSpan_disjoint
  have := field.apart
  simp only [frameAddr, rngAddr]
  omega

end FrameField

namespace Compressor

variable (c : Compressor) (field : FrameField)

/-- A call of `predictFrame` for the number in the read buffer, with that number in its true form. -/
def predictFrameAt (address : Nat) (refFrame : Word) : Word × Compressor :=
  let frame := readBE4S c.rb address
  let (frameDeltaPred, written) := c.predictFrame frame refFrame (some address)
  (if c.decodes then frameDeltaPred else frame, written)

/--
A call of `predictFrame` and a call of `predictRNG` behind it, for one event.

The second one looks for the predicted number in the write buffer, where the first one has put it.
-/
def predictFrameThenRNG (refFrame : Word) (fuel : Nat) : Option (Word × Compressor) :=
  let (frame, written) :=
    { c with bp := field.bp }.predictFrameAt (field.bp + field.frameoff) refFrame
  (written.predictRNG field.frameoff field.rngoff fuel).map fun done => (frame, done)

/-- What an encoder leaves for the frame number and for the seed, and the seed it goes on with. -/
inductive RngCode (frame delta seed : Word) : Word → Word → Word → Prop where
  | rollback (rolls : Nat) (recent : c.version.minVersion 3 6 0 = true) (few : rolls < maxRolls)
      (met : rollRNGRollback^[rolls] (c.computeRNGRollback frame) = seed) :
      RngCode frame delta seed delta (BitVec.ofNat 32 rolls) seed
  | legacy (rolls : Nat) (recent : c.version.minVersion 3 6 0 = true) (few : rolls < maxRolls)
      (met : rollRNGLegacy^[rolls] (c.computeRNGRollback frame) = seed) :
      RngCode frame delta seed delta (BitVec.ofNat 32 (rolls + maxRolls))
        (c.computeRNGRollback frame)
  | raw (recent : c.version.minVersion 3 6 0 = true) :
      RngCode frame delta seed (delta ^^^ rawRngMask) seed (c.computeRNGRollback frame)
  | old (rolls : Word) (ancient : c.version.minVersion 3 6 0 = false)
      (met : rollRNGLegacy^[rolls.toNat] c.rng = seed) :
      RngCode frame delta seed delta rolls seed

variable {c field} {refFrame : Word}

/-- A flag that was set is taken off again. -/
theorem withoutRawRNG_xor {frame : Word} (unflagged : checkRawRNG frame = false) :
    withoutRawRNG (frame ^^^ rawRngMask) = frame := by
  rw [withoutRawRNG, checkRawRNG_xor, unflagged, Bool.not_false, if_pos rfl, xor_mask_mask]

/-- Encoding an unflagged frame number writes its difference to the number expected. -/
theorem predictFrame_encode (encodes : ¬ c.decodes) {frame : Word} (address : Nat)
    (unflagged : checkRawRNG frame = false) :
    c.predictFrame frame refFrame (some address) =
      (frame - (refFrame + frameEncDelta),
        { c with wb := c.wb.setWord address (frame - (refFrame + frameEncDelta)) }) := by
  simp only [predictFrame, withoutRawRNG_of_unflagged unflagged, if_neg encodes, writeBE4S_eq]

/-- Decoding takes the flag off the difference and puts it on the frame number. -/
theorem predictFrame_decode (decodes : c.decodes) (refFrame : Word) {delta : Word} (address : Nat)
    (unflagged : checkRawRNG delta = false) (raw : Bool) :
    c.predictFrame (delta ^^^ if raw then rawRngMask else 0) refFrame (some address) =
      let frame := delta + (refFrame + frameEncDelta)
      (frame, { c with wb := c.wb.setWord address (frame ^^^ if raw then rawRngMask else 0) }) := by
  -- The flag is found in the difference, and set again where the number is written.
  cases raw with
  | true =>
    have flag : checkRawRNG (delta ^^^ rawRngMask) = true := by
      rw [checkRawRNG_xor, unflagged, Bool.not_false]
    simp only [predictFrame, if_true, flag, withoutRawRNG_xor unflagged, if_pos decodes,
      writeBE4S_eq]
  | false =>
    have plain : ∀ value : Word, value ^^^ 0 = value := fun _ => BitVec.xor_zero
    simp only [predictFrame, Bool.false_eq_true, if_false, plain, unflagged,
      withoutRawRNG_of_unflagged unflagged, if_pos decodes, writeBE4S_eq]

/-- Taking the flag off a number keeps it exactly if it has no flag. -/
theorem withoutRawRNG_eq_self_iff (frame : Word) :
    withoutRawRNG frame = frame ↔ checkRawRNG frame = false := by
  constructor
  · intro same
    by_contra flagged
    have flag : checkRawRNG frame = true := by simpa using flagged
    -- A flag that was taken off would still be there.
    have gone := checkRawRNG_xor frame
    rw [withoutRawRNG, if_pos flag] at same
    rw [same, flag] at gone
    exact absurd gone (by decide)
  · exact withoutRawRNG_of_unflagged

/-- A frame number comes back, as a result and in the buffer, exactly if no flag is in the way. -/
theorem predictFrame_restores_iff (encoder decoder : Compressor) (frame refFrame : Word)
    (address : Nat) :
    (let delta := ({ encoder with encodeVer := 0 }.predictFrame frame refFrame none).1;
      let restored := { decoder with encodeVer := compretzVersion }.predictFrame delta refFrame address;
      restored.1 = frame ∧ restored.2.wb.word address = frame) ↔
      (-2 ^ 30 ≤ frame.toInt ∧ frame.toInt < 2 ^ 30) ∧
        -2 ^ 30 ≤ (frame - (refFrame + 1)).toInt ∧ (frame - (refFrame + 1)).toInt < 2 ^ 30 := by
  have encodes : ¬ { encoder with encodeVer := 0 }.decodes := fun decodes => decodes rfl
  have decodes : { decoder with encodeVer := compretzVersion }.decodes := by
    show compretzVersion ≠ 0
    decide
  rw [← checkRawRNG_eq_false_iff, ← checkRawRNG_eq_false_iff]
  simp only [predictFrame, if_neg encodes, if_pos decodes, writeBE4S_eq, Memory.word_setWord]
  have one : refFrame + frameEncDelta = refFrame + 1 := rfl
  rw [one]
  generalize isDelta : withoutRawRNG frame - (refFrame + 1) = delta
  constructor
  · rintro ⟨result, written⟩
    -- The result and what is written agree only if the difference has no flag.
    have unflagged : checkRawRNG delta = false := by
      by_contra flagged
      rw [if_pos (by simpa using flagged), result] at written
      have changed := checkRawRNG_xor frame
      rw [written] at changed
      cases flag : checkRawRNG frame <;> simp [flag] at changed
    rw [withoutRawRNG_of_unflagged unflagged, ← isDelta, BitVec.sub_add_cancel] at result
    have unflaggedFrame := (withoutRawRNG_eq_self_iff frame).mp result
    rw [result] at isDelta
    exact ⟨unflaggedFrame, isDelta ▸ unflagged⟩
  · rintro ⟨unflagged, unflaggedDelta⟩
    rw [withoutRawRNG_of_unflagged unflagged] at isDelta
    have plain : ∀ value : Word, value ^^^ 0 = value := fun _ => BitVec.xor_zero
    rw [isDelta] at unflaggedDelta
    have back : delta + (refFrame + 1) = frame := by rw [← isDelta, BitVec.sub_add_cancel]
    rw [withoutRawRNG_of_unflagged unflaggedDelta, back, if_neg (by simp [unflaggedDelta]), plain]
    exact ⟨rfl, rfl⟩

/-- The seed of an unflagged frame is replaced by a count of rolls, or left with the flag set. -/
theorem encodeRNG_spec (unflagged : checkRawRNG (c.rb.word field.frameAddr) = false)
    (here : c.bp = field.bp) (fresh : c.wb.word field.rngAddr = c.rb.word field.rngAddr) :
    ∃ rng wb, c.encodeRNG field.frameoff field.rngoff (2 ^ 32) = some { c with rng, wb } ∧
      c.RngCode (c.rb.word field.frameAddr) (c.wb.word field.frameAddr) (c.rb.word field.rngAddr)
        (wb.word field.frameAddr) (wb.word field.rngAddr) rng := by
  -- Storing a seed leaves the frame number alone, which lies elsewhere.
  have kept : ∀ value, (c.wb.setWord field.rngAddr value).word field.frameAddr =
      c.wb.word field.frameAddr :=
    fun value => Memory.word_setWord_of_disjoint field.disjoint
  have frameAt : c.bp + field.frameoff = field.frameAddr := by rw [here, FrameField.frameAddr]
  have rngAt : c.bp + field.rngoff = field.rngAddr := by rw [here, FrameField.rngAddr]
  simp only [encodeRNG, frameAt, rngAt, readBE4S_eq, readBE4U_eq, writeBE4U_eq, writeBE4S_eq,
    withoutRawRNG_of_unflagged unflagged]
  by_cases recent : c.version.minVersion 3 6 0 = true
  · rw [if_pos recent]
    -- A newer replay first counts rolls of its own generator, then of the older one.
    obtain ⟨count, bounded, counted, met⟩ := countRolls_spec rollRNGRollback
      (c.rb.word field.rngAddr) maxRolls
      (c.computeRNGRollback (c.rb.word field.frameAddr)) 0
    rw [counted, Nat.zero_add]
    by_cases few : count < maxRolls
    · rw [if_pos few]
      refine ⟨_, _, rfl, ?_⟩
      rw [kept]
      show c.RngCode _ _ _ _ ((c.wb.setWord field.rngAddr _).word field.rngAddr) _
      rw [Memory.word_setWord]
      exact .rollback count recent few (met few)
    · rw [if_neg few]
      obtain ⟨count, bounded, counted, met⟩ := countRolls_spec rollRNGLegacy
        (c.rb.word field.rngAddr) maxRolls
        (c.computeRNGRollback (c.rb.word field.frameAddr)) 0
      rw [counted, Nat.zero_add]
      by_cases few : count < maxRolls
      · rw [if_pos few]
        refine ⟨_, _, rfl, ?_⟩
        rw [kept]
        show c.RngCode _ _ _ _ ((c.wb.setWord field.rngAddr _).word field.rngAddr) _
        rw [Memory.word_setWord]
        exact .legacy count recent few (met few)
      · rw [if_neg few]
        refine ⟨_, _, rfl, ?_⟩
        -- Neither meets the seed in time, so the frame number is flagged and the seed stays.
        show c.RngCode _ _ _ ((c.wb.setWord field.frameAddr _).word field.frameAddr)
          ((c.wb.setWord field.frameAddr _).word field.rngAddr) _
        rw [Memory.word_setWord, Memory.word_setWord_of_disjoint field.disjoint.symm, fresh]
        exact .raw recent
  · rw [if_neg recent]
    -- An older replay is searched without a bound, and a full period meets every seed.
    obtain ⟨rolls, found, met⟩ := rollUntil_total (c.rb.word field.rngAddr) c.rng
    rw [found]
    refine ⟨_, _, rfl, ?_⟩
    rw [kept]
    show c.RngCode _ _ _ _ ((c.wb.setWord field.rngAddr _).word field.rngAddr) _
    rw [Memory.word_setWord]
    exact .old rolls (by simpa using recent) met

/-- The code of an encoder, found before a decoder whose frame number is restored up to its flag. -/
structure HoldsCode (decoder : Compressor) (field : FrameField) (frame wordR : Word) (raw : Bool) :
    Prop where
  here : decoder.bp = field.bp
  restored : decoder.wb.word field.frameAddr = frame ^^^ if raw then rawRngMask else 0
  source : decoder.rb.word field.rngAddr = wordR
  pending : decoder.wb.word field.rngAddr = wordR

/-- The two sides agree on what the seeds are computed from. -/
structure RngSynced (encoder decoder : Compressor) : Prop where
  version : decoder.version = encoder.version
  rngStart : decoder.rngStart = encoder.rngStart
  /-- Old replays roll the seed on from event to event. -/
  rng : encoder.version.minVersion 3 6 0 = false → decoder.rng = encoder.rng

/-- Every code of an encoder is decoded to the seed it stands for. -/
theorem RngCode.decodeRNG {decoder : Compressor} {frame delta seed wordF wordR rng : Word}
    (code : c.RngCode frame delta seed wordF wordR rng) (synced : RngSynced c decoder)
    (unflagged : checkRawRNG frame = false) (unflaggedDelta : checkRawRNG delta = false)
    (holds : decoder.HoldsCode field frame wordR (checkRawRNG wordF)) :
    ∃ rng' wb, decoder.decodeRNG field.frameoff field.rngoff = { decoder with rng := rng', wb } ∧
      wb.word field.frameAddr = frame ∧ wb.word field.rngAddr = seed ∧
      (c.version.minVersion 3 6 0 = false → rng' = rng) := by
  have frameAt : decoder.bp + field.frameoff = field.frameAddr := by
    rw [holds.here, FrameField.frameAddr]
  have rngAt : decoder.bp + field.rngoff = field.rngAddr := by
    rw [holds.here, FrameField.rngAddr]
  -- Storing a seed leaves the frame number alone, which lies elsewhere.
  have kept : ∀ value, (decoder.wb.setWord field.rngAddr value).word field.frameAddr =
      decoder.wb.word field.frameAddr :=
    fun value => Memory.word_setWord_of_disjoint field.disjoint
  have plain : ∀ value : Word, value ^^^ 0 = value := fun _ => BitVec.xor_zero
  have sameStart : decoder.computeRNGRollback frame = c.computeRNGRollback frame := by
    rw [computeRNGRollback, computeRNGRollback, synced.rngStart]
  have restored := holds.restored
  -- Each kind of code is recognised by its flag and its count, and rolled as it was counted.
  cases code with
  | rollback rolls recent few met =>
    rw [unflaggedDelta, if_neg Bool.false_ne_true, plain] at restored
    have counted : (BitVec.ofNat 32 rolls).toNat = rolls := by
      rw [BitVec.toNat_ofNat, Nat.mod_eq_of_lt (few.trans (by decide))]
    rw [Compressor.decodeRNG]
    simp only [frameAt, rngAt, readBE4S_eq, readBE4U_eq, writeBE4U_eq, restored, unflagged,
      withoutRawRNG_of_unflagged unflagged, synced.version, recent, Bool.false_eq_true, if_false,
      if_true, holds.source, counted,
      if_pos few, sameStart, met]
    refine ⟨_, _, rfl, ?_, Memory.word_setWord _ _ _, fun _ => rfl⟩
    rw [kept, restored]
  | legacy rolls recent few met =>
    rw [unflaggedDelta, if_neg Bool.false_ne_true, plain] at restored
    have counted : (BitVec.ofNat 32 (rolls + maxRolls)).toNat = rolls + maxRolls := by
      rw [BitVec.toNat_ofNat, Nat.mod_eq_of_lt]
      have : maxRolls = 128 := rfl
      omega
    -- A count past the bound is one of the older generator.
    have many : ¬ rolls + maxRolls < maxRolls := by omega
    rw [Compressor.decodeRNG]
    simp only [frameAt, rngAt, readBE4S_eq, readBE4U_eq, writeBE4U_eq, restored, unflagged,
      withoutRawRNG_of_unflagged unflagged, synced.version, recent, Bool.false_eq_true, if_false,
      if_true, holds.source, counted,
      if_neg many, Nat.add_sub_cancel, sameStart, met]
    refine ⟨_, _, rfl, ?_, Memory.word_setWord _ _ _, fun ancient => ?_⟩
    · rw [kept, restored]
    · exact absurd ancient (by decide)
  | raw recent =>
    rw [checkRawRNG_xor, unflaggedDelta, Bool.not_false, if_pos rfl] at restored
    -- The frame number is restored with the flag, which tells to leave the seed and clear the flag.
    have flag : checkRawRNG (frame ^^^ rawRngMask) = true := by
      rw [checkRawRNG_xor, unflagged, Bool.not_false]
    rw [Compressor.decodeRNG]
    simp only [frameAt, rngAt, readBE4S_eq, writeBE4U_eq, restored, flag, synced.version, recent,
      if_true, withoutRawRNG_xor unflagged]
    refine ⟨_, _, rfl, Memory.word_setWord _ _ _, ?_, fun ancient => ?_⟩
    · rw [Memory.word_setWord_of_disjoint field.disjoint.symm, holds.pending]
    · exact absurd ancient (by decide)
  | old rolls ancient met =>
    rw [unflaggedDelta, if_neg Bool.false_ne_true, plain] at restored
    rw [Compressor.decodeRNG]
    simp only [frameAt, rngAt, readBE4S_eq, readBE4U_eq, writeBE4U_eq, restored, synced.version,
      ancient, Bool.false_eq_true, if_false, holds.source, synced.rng ancient, met]
    refine ⟨_, _, rfl, ?_, Memory.word_setWord _ _ _, fun _ => rfl⟩
    rw [kept, restored]

/-- What stands for the frame number is its difference, flagged or not. -/
theorem RngCode.isCode {frame delta seed wordF wordR rng : Word}
    (code : c.RngCode frame delta seed wordF wordR rng) (unflagged : checkRawRNG delta = false) :
    wordF = delta ^^^ if checkRawRNG wordF then rawRngMask else 0 := by
  -- Only a seed that is left raw sets the flag.
  have plain : delta = delta ^^^ 0 := BitVec.xor_zero.symm
  cases code with
  | rollback | legacy | old =>
    rw [unflagged, if_neg Bool.false_ne_true]
    exact plain
  | raw => rw [checkRawRNG_xor, unflagged, Bool.not_false, if_pos rfl]

/-- A code depends on the version and the seeds of the encoder only. -/
theorem RngCode.transfer {other : Compressor} {frame delta seed wordF wordR rng : Word}
    (code : other.RngCode frame delta seed wordF wordR rng) (version : other.version = c.version)
    (rngStart : other.rngStart = c.rngStart) (sameRng : other.rng = c.rng) :
    c.RngCode frame delta seed wordF wordR rng := by
  -- Every kind of code rolls from one of the seeds that agree.
  have sameStart : other.computeRNGRollback frame = c.computeRNGRollback frame := by
    rw [computeRNGRollback, computeRNGRollback, rngStart]
  cases code with
  | rollback rolls recent few met =>
    exact .rollback rolls (version ▸ recent) few (sameStart ▸ met)
  | legacy rolls recent few met =>
    rw [sameStart]
    exact .legacy rolls (version ▸ recent) few (sameStart ▸ met)
  | raw recent =>
    rw [sameStart]
    exact .raw (version ▸ recent)
  | old rolls ancient met => exact .old _ (version ▸ ancient) (sameRng ▸ met)

/-- A number that was predicted is what the call for its seed starts from. -/
theorem predictFrameThenRNG_eq {framePred : Word} {written : Compressor} (fuel : Nat)
    (predicted : { c with bp := field.bp }.predictFrame (c.rb.word field.frameAddr) refFrame
      (some field.frameAddr) = (framePred, written)) :
    c.predictFrameThenRNG field refFrame fuel =
      (written.predictRNG field.frameoff field.rngoff fuel).map fun done =>
        (if c.decodes then framePred else c.rb.word field.frameAddr, done) := by
  -- Reading the number is all that happens in front of the two calls.
  rw [FrameField.frameAddr] at predicted ⊢
  simp only [predictFrameThenRNG, predictFrameAt, readBE4S_eq, predicted]
  rfl

/-- An unflagged frame number and its seed are encoded by the difference and one of the codes. -/
theorem predictFrameThenRNG_encode (encodes : ¬ c.decodes) (refFrame : Word)
    (fresh : c.wb.word field.rngAddr = c.rb.word field.rngAddr)
    (unflagged : checkRawRNG (c.rb.word field.frameAddr) = false) :
    ∃ rng wb, c.predictFrameThenRNG field refFrame (2 ^ 32) =
        some (c.rb.word field.frameAddr, { c with bp := field.bp, rng, wb }) ∧
      c.RngCode (c.rb.word field.frameAddr) (c.rb.word field.frameAddr - (refFrame + frameEncDelta))
        (c.rb.word field.rngAddr) (wb.word field.frameAddr) (wb.word field.rngAddr) rng := by
  -- The number of the frame is written first, and the code of its seed is found after that.
  let start := { c with bp := field.bp }
  let delta := c.rb.word field.frameAddr - (refFrame + frameEncDelta)
  let written := { start with wb := c.wb.setWord field.frameAddr delta }
  have predicted : start.predictFrame (c.rb.word field.frameAddr) refFrame (some field.frameAddr) =
      (delta, written) := predictFrame_encode (c := start) encodes field.frameAddr unflagged
  have stillFresh : written.wb.word field.rngAddr = c.rb.word field.rngAddr :=
    (Memory.word_setWord_of_disjoint field.disjoint.symm).trans fresh
  obtain ⟨rng, wb, encoded, code⟩ := encodeRNG_spec (c := written) unflagged rfl stillFresh
  refine ⟨rng, wb, ?_, ?_⟩
  · have sameDirection : ¬ written.decodes := encodes
    rw [predictFrameThenRNG_eq _ predicted, predictRNG, if_neg sameDirection, encoded, if_neg encodes,
      Option.map_some]
  · have differs : written.wb.word field.frameAddr = delta := Memory.word_setWord _ _ _
    rw [differs] at code
    exact code.transfer rfl rfl rfl

/-- Both words are decoded to the frame number and the seed that they stand for. -/
theorem predictFrameThenRNG_decode {decoder : Compressor} (decodes : decoder.decodes)
    {frame delta seed wordF wordR rng : Word} (code : c.RngCode frame delta seed wordF wordR rng)
    (synced : RngSynced c decoder) (isDelta : delta = frame - (refFrame + frameEncDelta))
    (unflagged : checkRawRNG frame = false) (unflaggedDelta : checkRawRNG delta = false)
    (sourceF : decoder.rb.word field.frameAddr = wordF)
    (sourceR : decoder.rb.word field.rngAddr = wordR)
    (pending : decoder.wb.word field.rngAddr = wordR) (fuel : Nat) :
    ∃ rng' wb, decoder.predictFrameThenRNG field refFrame fuel =
        some (frame, { decoder with bp := field.bp, rng := rng', wb }) ∧
      wb.word field.frameAddr = frame ∧ wb.word field.rngAddr = seed ∧
      (c.version.minVersion 3 6 0 = false → rng' = rng) := by
  -- The frame number is restored up to its flag, and the flag tells how to read the seed.
  let start := { decoder with bp := field.bp }
  let flagged := frame ^^^ if checkRawRNG wordF then rawRngMask else 0
  let middle := { start with wb := decoder.wb.setWord field.frameAddr flagged }
  have sum : delta + (refFrame + frameEncDelta) = frame := by rw [isDelta, BitVec.sub_add_cancel]
  have predicted : start.predictFrame (decoder.rb.word field.frameAddr) refFrame
      (some field.frameAddr) = (frame, middle) := by
    have restores := predictFrame_decode (c := start) decodes refFrame field.frameAddr
      unflaggedDelta (checkRawRNG wordF)
    rw [← code.isCode unflaggedDelta, sum] at restores
    rw [sourceF]
    exact restores
  have holds : middle.HoldsCode field frame wordR (checkRawRNG wordF) := by
    constructor
    · rfl
    · exact Memory.word_setWord _ _ _
    · exact sourceR
    · exact (Memory.word_setWord_of_disjoint field.disjoint.symm).trans pending
  have stillSynced : RngSynced c middle := ⟨synced.version, synced.rngStart, synced.rng⟩
  have sameDirection : middle.decodes := decodes
  obtain ⟨rng', wb, decoded, restoredF, restoredR, sameRng⟩ :=
    code.decodeRNG stillSynced unflagged unflaggedDelta holds
  refine ⟨rng', wb, ?_, restoredF, restoredR, sameRng⟩
  rw [predictFrameThenRNG_eq fuel predicted, predictRNG, if_pos sameDirection, decoded, Option.map_some,
    if_pos decodes]

/-- The frame number is written at one address, or nothing is written. -/
theorem predictFrame_wb (frame refFrame : Word) (address : Nat) :
    ∃ value, (c.predictFrame frame refFrame (some address)).2 =
      { c with wb := c.wb.setWord address value } := by
  -- Both directions write one word.
  simp only [predictFrame, writeBE4S_eq]
  split
  · exact ⟨_, rfl⟩
  · exact ⟨_, rfl⟩

/-- An encoder puts the difference in the place of an unflagged number. -/
theorem predictFrameAt_encode (encodes : ¬ c.decodes) (refFrame : Word) {address : Nat}
    (unflagged : checkRawRNG (c.rb.word address) = false) :
    c.predictFrameAt address refFrame = (c.rb.word address, { c with
      wb := c.wb.setWord address (c.rb.word address - (refFrame + frameEncDelta)) }) := by
  -- What is written is the difference, and what is handed on the number itself.
  simp only [predictFrameAt, readBE4S_eq, predictFrame_encode encodes address unflagged,
    if_neg encodes]

/-- A decoder puts the number in the place of an unflagged difference. -/
theorem predictFrameAt_decode (decodes : c.decodes) {frame : Word} {address : Nat}
    (unflagged : checkRawRNG (frame - (refFrame + frameEncDelta)) = false)
    (source : c.rb.word address = frame - (refFrame + frameEncDelta)) :
    c.predictFrameAt address refFrame = (frame, { c with wb := c.wb.setWord address frame }) := by
  -- An unflagged difference is one whose flag was set to nothing.
  have restores := predictFrame_decode decodes refFrame address unflagged false
  have plain : ∀ value : Word, value ^^^ 0 = value := fun _ => BitVec.xor_zero
  simp only [Bool.false_eq_true, if_false, plain, BitVec.sub_add_cancel] at restores
  simp only [predictFrameAt, readBE4S_eq, source, restores, if_pos decodes]

/-- Predicting a number writes at its address only, and an encoder hands on the number it read. -/
theorem predictFrameAt_writes (address : Nat) (refFrame : Word) :
    (¬ c.decodes → (c.predictFrameAt address refFrame).1 = c.rb.word address) ∧
      ∃ value, (c.predictFrameAt address refFrame).2 =
        { c with wb := c.wb.setWord address value } := by
  -- A decoder hands on what it computed instead.
  constructor
  · intro encodes
    simp only [predictFrameAt, readBE4S_eq, if_neg encodes]
  · exact predictFrame_wb (readBE4S c.rb address) refFrame address

/-- The seed is written at its own address, or the frame number again at its address. -/
theorem predictRNG_writes {frameoff rngoff fuel : Nat} {done : Compressor}
    (predicted : c.predictRNG frameoff rngoff fuel = some done) :
    ∃ rng address value, (address = c.bp + frameoff ∨ address = c.bp + rngoff) ∧
      done = { c with rng, wb := c.wb.setWord address value } := by
  -- Every branch of both directions ends with a single word written.
  unfold predictRNG at predicted
  split at predicted
  · cases predicted
    simp only [decodeRNG, writeBE4U_eq]
    split
    · split
      · exact ⟨_, _, _, .inl rfl, rfl⟩
      · exact ⟨_, _, _, .inr rfl, rfl⟩
    · exact ⟨_, _, _, .inr rfl, rfl⟩
  · simp only [encodeRNG, writeBE4U_eq, writeBE4S_eq] at predicted
    split at predicted
    · split at predicted
      · cases predicted
        exact ⟨_, _, _, .inr rfl, rfl⟩
      · split at predicted
        · cases predicted
          exact ⟨_, _, _, .inr rfl, rfl⟩
        · cases predicted
          exact ⟨_, _, _, .inl rfl, rfl⟩
    · obtain ⟨⟨rng, rolls⟩, found, rfl⟩ := Option.map_eq_some_iff.mp predicted
      exact ⟨_, _, _, .inr rfl, rfl⟩

/-- The two calls change the seed, the position and at most two words. -/
theorem predictFrameThenRNG_writes {fuel : Nat} {frame : Word} {done : Compressor}
    (worked : c.predictFrameThenRNG field refFrame fuel = some (frame, done)) :
    (¬ c.decodes → frame = c.rb.word field.frameAddr) ∧
      ∃ rng address first second, (address = field.frameAddr ∨ address = field.rngAddr) ∧
        done = { c with
          bp := field.bp
          rng
          wb := (c.wb.setWord field.frameAddr first).setWord address second } := by
  -- The number is written once, and after it one of the two words.
  let start := { c with bp := field.bp }
  obtain ⟨value, first⟩ :=
    predictFrame_wb (c := start) (c.rb.word field.frameAddr) refFrame field.frameAddr
  have predicted : start.predictFrame (c.rb.word field.frameAddr) refFrame (some field.frameAddr) =
      (_, { start with wb := c.wb.setWord field.frameAddr value }) := Prod.ext rfl first
  rw [predictFrameThenRNG_eq fuel predicted] at worked
  obtain ⟨after, predicted, same⟩ := Option.map_eq_some_iff.mp worked
  cases same
  obtain ⟨rng, address, second, place, rfl⟩ := predictRNG_writes predicted
  constructor
  · intro encodes
    rw [if_neg encodes]
  · exact ⟨rng, address, value, second, place, rfl⟩

/-- The two calls write nothing but the frame number and its seed. -/
theorem predictFrameThenRNG_outside {fuel : Nat} {frame : Word} {done : Compressor}
    (worked : c.predictFrameThenRNG field refFrame fuel = some (frame, done)) :
    Set.EqOn done.wb c.wb field.spanᶜ := by
  -- Both words that are written belong to the number or to the seed.
  obtain ⟨_, rng, address, first, second, place, rfl⟩ := predictFrameThenRNG_writes worked
  intro position remote
  have farF : position ∉ Memory.wordSpan field.frameAddr := fun inside => remote (.inl inside)
  have farR : position ∉ Memory.wordSpan field.rngAddr := fun inside => remote (.inr inside)
  rcases place with rfl | rfl
  · exact (Memory.setWord_of_not_mem farF).trans (Memory.setWord_of_not_mem farF)
  · exact (Memory.setWord_of_not_mem farR).trans (Memory.setWord_of_not_mem farF)

end Compressor

end SlippCrunch
