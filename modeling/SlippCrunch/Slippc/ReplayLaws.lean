import SlippCrunch.Slippc.ReplayCodec

/-! Calls for ordinary numbers restore them, and calls for fields that cannot be encoded never do. -/

namespace SlippCrunch

open Compressor EscapeCode

/-- The compressor before the first event, once the game start was read. -/
def Compressor.initial (version : SlippiVersion) (rng rngStart : Word) : Compressor where
  version := version
  encodeVer := 0
  floatToInt := fun _ => none
  intToFloat := fun _ => none
  intToFloatC := fun _ => none
  numFloats := 0
  rng := rng
  rngStart := rngStart
  history := fun _ _ => 0
  rb := fun _ => 0
  wb := fun _ => 0
  bp := 0

/-- Before the first event no frame number was met. -/
def Coder.initial (version : SlippiVersion) (rng rngStart : Word) : Coder where
  compressor := .initial version rng rngStart
  frames := []

/-- Before the first event the float maps are empty. -/
theorem initial_mapsFloats (version : SlippiVersion) (rng rngStart : Word) :
    (Compressor.initial version rng rngStart).MapsFloats [] where
  distinct := List.nodup_nil
  count := rfl
  index := fun _ => (if_neg List.not_mem_nil).symm
  float := fun _ => rfl

/-- A compressor whose float maps are in order is in step with itself. -/
theorem Coder.Synced.refl {coder : Coder} {seen : List Word}
    (maps : coder.compressor.MapsFloats seen) : coder.Synced coder where
  compressor := {
    version := rfl
    rngStart := rfl
    rng := fun _ => rfl
    history := rfl
    floats := ⟨seen, maps, maps⟩ }
  frames := rfl

variable {F : Type} [SingleOps F]

/-- The compressor is in step with itself before the first event. -/
theorem initial_synced (version : SlippiVersion) (rng rngStart : Word) :
    (Coder.initial version rng rngStart).Synced (.initial version rng rngStart) :=
  .refl (initial_mapsFloats version rng rngStart)

/-- A field that cannot be told apart is always decoded to something else. -/
theorem field_exact (call : FieldCall F) : (eventCodec F).Exact (.field call) := by
  intro encoder decoder plain target coded restored synced refuses fresh source pending needs
  -- Two compressors in step restore a field exactly if the encoder admits it.
  have ready := EventCall.field_ready synced fresh source pending needs
  intro restores
  exact refuses ((FieldCall.roundTrips ready).restores.mp restores)

/-- A memory that begins with the given bytes. -/
def memoryOf (bytes : List Byte) : Memory := fun position => bytes.getD position 0

/-- An analog value and a float beside it. -/
def negativeZeroCalls : List (FieldCall Rat) :=
  [.encodeAnalog 0 0 80, .predictVeloc 4 0 (.xPreFrame 0) (.xPreFrame2 0)]

/-- The analog value is a negative zero. -/
def negativeZeroPlain : Memory := memoryOf [0x80, 0, 0, 0, 0x3F, 0x80, 0, 0]

section Ordinary

/-- The bits of the mark are the first eight. -/
theorem magicFloat_bit : ∀ bit < 32, magicFloat.getLsbD bit = decide (24 ≤ bit) := by decide

/-- A word that differs from the mark in its last bits only has the mark's first bits. -/
theorem marked_of_close {plain maxDiff : Word} (small : maxDiff.toNat < 2 ^ 24)
    (close : plain ^^^ magicFloat ≤ maxDiff) : plain &&& magicFloat = magicFloat := by
  -- Bit by bit, the first eight bits of the word are those of the mark.
  have below : (plain ^^^ magicFloat).toNat < 2 ^ 24 := lt_of_le_of_lt close small
  apply BitVec.eq_of_getLsbD_eq
  intro bit inside
  rw [BitVec.getLsbD_and, magicFloat_bit bit inside]
  by_cases high : 24 ≤ bit
  · -- The difference is too small to reach a high bit.
    have none : (plain ^^^ magicFloat).getLsbD bit = false := testBit_high below high
    rw [BitVec.getLsbD_xor, magicFloat_bit bit inside] at none
    simpa [high] using none
  · simp [high]

/-- A small index keeps clear of the mark. -/
theorem index_clear {index : Nat} (small : index < 2 ^ 24) :
    BitVec.ofNat 32 index &&& magicFloat = 0 := by
  apply BitVec.eq_of_getLsbD_eq
  intro bit inside
  rw [BitVec.getLsbD_and, magicFloat_bit bit inside, BitVec.getLsbD_ofNat]
  -- The index stays below the bits of the mark.
  by_cases high : 24 ≤ bit
  · have none := testBit_high small high
    simp [none]
  · simp [high]

/-- A plain float does not begin with the mark, and a plain analog value is one that comes back. -/
def FieldCall.Ordinary (plain : Memory) : FieldCall F → Prop
  | .encodeAnalog bp off mult => AnalogAdmits mult (plain.word (bp + off))
  | .xorEncodeRange _ _ _ _ => True
  | .buildFloatMap bp off | .predictAsDifference bp off _ _ | .predictJolt bp off _ _ _ _
  | .predictAccel bp off _ _ _ | .predictVeloc bp off _ _ =>
    plain.word (bp + off) &&& magicFloat ≠ magicFloat

/-- A frame number of thirty bits. -/
def OrdinaryFrame (number : Word) : Prop := -2 ^ 29 ≤ number.toInt ∧ number.toInt < 2 ^ 29

/-- The reference is a number met before, or one of the two that replays start with. -/
def OrdinaryReference (reference : List Word → Word) : Prop :=
  ∀ frames, reference frames ∈ frames ∨ reference frames = -123 ∨ reference frames = 0

/-- The plain numbers are ordinary, and so are the references they are predicted from. -/
def EventCall.Ordinary (plain : Memory) : EventCall F → Prop
  | .frame address reference => OrdinaryFrame (plain.word address) ∧ OrdinaryReference reference
  | .frameThenRNG place reference =>
    OrdinaryFrame (plain.word place.frameAddr) ∧ OrdinaryReference reference
  | .field call => call.Ordinary plain

/-- What is remembered of ordinary calls. -/
structure Coder.Remembers (coder : Coder) (count : Nat) : Prop where
  floats : ∃ seen : List Word, coder.compressor.MapsFloats seen ∧ seen.length ≤ count
  frames : ∀ number ∈ coder.frames, OrdinaryFrame number

/-- The difference of two ordinary frame numbers is clear of the flag. -/
theorem difference_unflagged {number refFrame : Word} (ordinary : OrdinaryFrame number)
    (ordinary' : OrdinaryFrame refFrame) :
    checkRawRNG (number - (refFrame + frameEncDelta)) = false := by
  rw [checkRawRNG_eq_false_iff]
  obtain ⟨least, most⟩ := ordinary
  obtain ⟨least', most'⟩ := ordinary'
  have one : frameEncDelta.toInt = 1 := rfl
  -- Ordinary numbers are far from the ends of the range, so nothing here wraps around.
  have sum : (refFrame + frameEncDelta).toInt = refFrame.toInt + 1 := by
    rw [BitVec.toInt_add, one]
    exact Int.bmod_eq_of_le (by omega) (by omega)
  have difference : (number - (refFrame + frameEncDelta)).toInt =
      number.toInt - (refFrame.toInt + 1) := by
    rw [BitVec.toInt_sub, sum]
    exact Int.bmod_eq_of_le (by omega) (by omega)
  rw [difference]
  omega

/-- An ordinary frame number is clear of the flag, and so is its difference to the reference. -/
theorem OrdinaryFrame.unflagged {coder : Coder} {count : Nat} {number : Word}
    {reference : List Word → Word} (ordinary : OrdinaryFrame number)
    (among : OrdinaryReference reference) (remembers : coder.Remembers count) :
    EventCall.Unflagged coder reference number := by
  constructor
  · rw [checkRawRNG_eq_false_iff]
    have := ordinary.1
    have := ordinary.2
    omega
  · apply difference_unflagged ordinary
    -- The reference is a frame number met before, or one of the two that replays start with.
    rcases among coder.frames with earlier | first | zero
    · exact remembers.frames _ earlier
    · rw [first]
      exact ⟨by decide, by decide⟩
    · rw [zero]
      exact ⟨by decide, by decide⟩

/-- An ordinary call can be encoded as long as its index keeps clear of the mark. -/
theorem EventCall.Ordinary.admits {coder : Coder} {call : EventCall F} {plain : Memory}
    {count : Nat} (ordinary : call.Ordinary plain) (remembers : coder.Remembers count)
    (room : count < 2 ^ 24) : call.Admits coder plain := by
  -- A word that is close to the mark has its first bits, which ordinary words do not have.
  have markable : ∀ {word maxDiff predicted : Word}, maxDiff.toNat < 2 ^ 24 →
      word &&& magicFloat ≠ magicFloat → Markable magicFloat maxDiff predicted word :=
    fun small unmarked => .inr fun close => unmarked (marked_of_close small close)
  cases call with
  | frame address reference => exact ordinary.1.unflagged ordinary.2 remembers
  | frameThenRNG place reference => exact ordinary.1.unflagged ordinary.2 remembers
  | field call =>
    cases call with
    | buildFloatMap bp off =>
      obtain ⟨seen, maps, few⟩ := remembers.floats
      simp only [Admits, FieldCall.Admits, maps.index]
      by_cases old : plain.word (bp + off) ∈ seen
      · rw [if_pos old]
        -- An old float is replaced by its index, which counts the floats met so far.
        have index := List.idxOf_lt_length_iff.mpr old
        exact index_clear (by omega)
      · rw [if_neg old]
        exact ordinary
    | encodeAnalog bp off mult => exact ordinary
    | predictAsDifference bp off buffoff buff => exact markable (by decide) ordinary
    | predictJolt bp off buff1 buff2 buff3 buff4 => exact markable (by decide) ordinary
    | predictAccel bp off buff1 buff2 buff3 => exact markable (by decide) ordinary
    | predictVeloc bp off buff1 buff2 => exact markable (by decide) ordinary
    | xorEncodeRange bp start stop buffer => trivial

/-- One more ordinary number leaves only ordinary numbers, as long as the float maps stay. -/
theorem Coder.Remembers.meets {coder : Coder} {count : Nat} (remembers : coder.Remembers count)
    {done : Compressor} {number : Word} (ordinary : OrdinaryFrame number)
    (kept : ∀ seen, coder.compressor.MapsFloats seen → done.MapsFloats seen) :
    { compressor := done, frames := number :: coder.frames : Coder }.Remembers (count + 1) := by
  obtain ⟨seen, maps, few⟩ := remembers.floats
  constructor
  · exact ⟨seen, kept seen maps, by omega⟩
  · -- The number is the one that was added, or one met before.
    intro other member
    rcases List.mem_cons.mp member with rfl | earlier
    · exact ordinary
    · exact remembers.frames other earlier

/-- An ordinary call leaves at most one more float, and only ordinary frame numbers. -/
theorem EventCall.Ordinary.remembers {coder : Coder} {call : EventCall F} {plain : Memory}
    {count : Nat} (ordinary : call.Ordinary plain) (remembers : coder.Remembers count)
    (target : Memory) : (call.work 0 coder plain target).2.Remembers (count + 1) := by
  let c := { coder.compressor with encodeVer := 0, rb := plain, wb := target }
  have encodes : ¬ c.decodes := fun decodes => decodes rfl
  cases call with
  | frame address reference =>
    -- A prediction changes nothing but the buffer it writes.
    obtain ⟨isNumber, value, changed⟩ := c.predictFrameAt_writes address (reference coder.frames)
    apply remembers.meets
    · show OrdinaryFrame (c.predictFrameAt address (reference coder.frames)).1
      rw [isNumber encodes]
      exact ordinary.1
    · intro seen maps
      show (c.predictFrameAt address (reference coder.frames)).2.MapsFloats seen
      rw [changed]
      exact maps.transfer rfl rfl rfl
  | frameThenRNG place reference =>
    -- With the seed behind it a prediction changes the seed as well.
    obtain ⟨isNumber, rng, address, first, second, _, changed⟩ :=
      predictFrameThenRNG_writes (c.predictFrameThenRNG_frameThenRNG place (reference coder.frames))
    apply remembers.meets
    · show OrdinaryFrame (c.frameThenRNG place (reference coder.frames)).1
      rw [isNumber encodes]
      exact ordinary.1
    · intro seen maps
      show (c.frameThenRNG place (reference coder.frames)).2.MapsFloats seen
      rw [changed]
      exact maps.transfer rfl rfl rfl
  | field call =>
    obtain ⟨seen, maps, few⟩ := remembers.floats
    refine ⟨?_, remembers.frames⟩
    rcases call.run_writes c with ⟨bp, off, rfl⟩ | ⟨bp, wb, history, ran, _⟩
    · have here : { c with bp }.MapsFloats seen := maps.transfer rfl rfl rfl
      refine ⟨_, buildFloatMap_learns (c := { c with bp }) encodes _ here, ?_⟩
      -- A float that is new is added, and one that is known is not.
      rw [learn]
      split
      · omega
      · rw [List.length_append, List.length_singleton]
        omega
    · -- Writing bytes and history leaves the float maps alone.
      refine ⟨seen, ?_, by omega⟩
      show (call.run c).MapsFloats seen
      rw [ran]
      exact maps.transfer rfl rfl rfl

/-- A run of ordinary calls meets nothing that cannot be encoded, unless it is very long. -/
theorem admitsRun_of_ordinary {plain : Memory} {calls : List (EventCall F)} {coder : Coder}
    {target : Memory} {count : Nat} (ordinary : ∀ call ∈ calls, call.Ordinary plain)
    (remembers : coder.Remembers count) (room : count + calls.length ≤ 2 ^ 24) :
    (eventCodec F).AdmitsRun plain coder target calls := by
  -- Each call makes the maps larger by one at most, so the bound moves along with the run.
  induction calls generalizing coder target count with
  | nil => trivial
  | cons call calls ih =>
    rw [List.length_cons] at room
    have first := ordinary call (.head _)
    constructor
    · exact first.admits remembers (by omega)
    · exact ih (fun later member => ordinary later (.tail _ member))
        (first.remembers remembers target) (by omega)

/-- The frame numbers and seeds of two events behind each other, and two equal floats after them. -/
def sampleCalls : List (EventCall Rat) :=
  let reference : List Word → Word := fun frames => frames.headD (-123)
  [.frameThenRNG ⟨0, 1, 5, .inl (le_refl 5)⟩ reference,
    .frameThenRNG ⟨9, 1, 5, .inl (le_refl 5)⟩ reference,
    .field (.buildFloatMap 18 0), .field (.buildFloatMap 22 0)]

/-- The first two frames of a replay, the second seed being one that no rolls lead to. -/
def samplePlain : Memory :=
  memoryOf [0x3A, 0xFF, 0xFF, 0xFF, 0x85, 0, 0, 0, 7, 0x3A, 0xFF, 0xFF, 0xFF, 0x86, 9, 9, 9, 9,
    0x3F, 0x80, 0, 0, 0x3F, 0x80, 0, 0]

/-- The fields of the sample lie apart. -/
theorem sampleCalls_orderly :
    letI := RationalFloats.singleOps
    (eventCodec Rat).Orderly sampleCalls := by
  -- The four fields lie behind each other, and none looks at another one.
  constructor
  · simp only [sampleCalls, eventCodec, EventCall.span, EventCall.needs, FieldCall.span,
      FieldCall.needs, FrameField.span, FrameField.frameAddr, FrameField.rngAddr, Memory.wordSpan,
      List.pairwise_cons, List.forall_mem_cons, List.Pairwise.nil, Set.disjoint_left,
      Set.mem_union, Set.mem_ofPred_eq, Set.mem_empty_iff_false, List.not_mem_nil,
      IsEmpty.forall_iff, implies_true, and_true]
    refine ⟨⟨?_, ?_, ?_⟩, ⟨?_, ?_⟩, ?_⟩
    all_goals
      intro position
      omega
  · simp [sampleCalls, eventCodec, EventCall.needs, FieldCall.needs]

end Ordinary

end SlippCrunch
