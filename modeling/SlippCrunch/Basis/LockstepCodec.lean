import Mathlib.Data.Set.BooleanAlgebra
import Mathlib.Data.Set.Function
import Mathlib.Order.CompletePartialOrder

/-! Codecs of memory fields whose encoder and decoder keep their histories in step. -/

/--
An encoder and a decoder of single fields, each keeping a history of the fields it has met.

A call names the field to work on. The encoder is handed the plain memory and the memory it writes,
the decoder the encoded memory and the memory it restores.
-/
structure LockstepCodec (Address Cell State Call : Type*) where
  /-- Encode one field. -/
  encode : State → Call → (Address → Cell) → (Address → Cell) → (Address → Cell) × State
  /-- Decode one field. -/
  decode : State → Call → (Address → Cell) → (Address → Cell) → (Address → Cell) × State
  /-- The addresses of the field itself. -/
  span : Call → Set Address
  /-- The addresses of other fields that decoding it looks at, in their restored form. -/
  needs : Call → Set Address
  /-- The field is encoded to something that can be decoded. -/
  Admits : State → Call → (Address → Cell) → Prop
  /-- The two histories agree as far as predictions depend on them. -/
  Synced : State → State → Prop
  encode_outside : ∀ state call plain target,
    Set.EqOn (encode state call plain target).1 target (span call)ᶜ
  decode_outside : ∀ state call coded target,
    Set.EqOn (decode state call coded target).1 target (span call)ᶜ
  decode_encode : ∀ {encoder decoder call plain target coded restored},
    Synced encoder decoder → Admits encoder call plain →
    Set.EqOn target plain (span call) →
    Set.EqOn coded (encode encoder call plain target).1 (span call) →
    Set.EqOn restored coded (span call) → Set.EqOn restored plain (needs call) →
    Set.EqOn (decode decoder call coded restored).1 plain (span call) ∧
      Synced (encode encoder call plain target).2 (decode decoder call coded restored).2

namespace LockstepCodec

variable {Address Cell State Call : Type*} (codec : LockstepCodec Address Cell State Call)

/-- The encoder's calls one after the other. -/
def encodeRun (plain : Address → Cell) :
    State → (Address → Cell) → List Call → (Address → Cell) × State
  | state, target, [] => (target, state)
  | state, target, call :: calls =>
    let (written, next) := codec.encode state call plain target
    encodeRun plain next written calls

/-- The decoder's calls one after the other. -/
def decodeRun (coded : Address → Cell) :
    State → (Address → Cell) → List Call → (Address → Cell) × State
  | state, target, [] => (target, state)
  | state, target, call :: calls =>
    let (written, next) := codec.decode state call coded target
    decodeRun coded next written calls

/-- The memory after the encoder's calls, which writes on a copy of the plain one. -/
def encoded (state : State) (calls : List Call) (plain : Address → Cell) : Address → Cell :=
  (codec.encodeRun plain state plain calls).1

/-- The memory after the decoder's calls, which writes on a copy of the encoded one. -/
def decoded (state : State) (calls : List Call) (coded : Address → Cell) : Address → Cell :=
  (codec.decodeRun coded state coded calls).1

/-- Calls made alike in both directions give the memory back, with both histories still in step. -/
structure RoundTrip (encoder decoder : State) (calls : List Call) (plain : Address → Cell) :
    Prop where
  restores : codec.decoded decoder calls (codec.encoded encoder calls plain) = plain
  synced : codec.Synced (codec.encodeRun plain encoder plain calls).2
    (codec.decodeRun (codec.encoded encoder calls plain) decoder
      (codec.encoded encoder calls plain) calls).2

/-- Every call of the encoder meets a field that it can encode. -/
def AdmitsRun (plain : Address → Cell) : State → (Address → Cell) → List Call → Prop
  | _, _, [] => True
  | state, target, call :: calls =>
    codec.Admits state call plain ∧
      AdmitsRun plain (codec.encode state call plain target).2
        (codec.encode state call plain target).1 calls

/-- No two calls work on one address, and none looks at an address that it or a later one works on. -/
structure Orderly (calls : List Call) : Prop where
  apart : calls.Pairwise fun call later =>
    Disjoint (codec.span call) (codec.span later) ∧ Disjoint (codec.needs call) (codec.span later)
  elsewhere : ∀ call ∈ calls, Disjoint (codec.needs call) (codec.span call)

/-- If the field of a call cannot be encoded, it is always decoded to something else. -/
def Exact (call : Call) : Prop :=
  ∀ {encoder decoder plain target coded restored},
    codec.Synced encoder decoder → ¬ codec.Admits encoder call plain →
    Set.EqOn target plain (codec.span call) →
    Set.EqOn coded (codec.encode encoder call plain target).1 (codec.span call) →
    Set.EqOn restored coded (codec.span call) → Set.EqOn restored plain (codec.needs call) →
    ¬ Set.EqOn (codec.decode decoder call coded restored).1 plain (codec.span call)

variable {codec} {plain coded target restored : Address → Cell} {encoder decoder : State}
  {calls : List Call}

/-- The encoder writes nothing outside the fields it is called for. -/
theorem encodeRun_outside (state : State) (target : Address → Cell) (calls : List Call)
    {address : Address} (outside : ∀ call ∈ calls, address ∉ codec.span call) :
    (codec.encodeRun plain state target calls).1 address = target address := by
  induction calls generalizing state target with
  | nil => rfl
  | cons call calls ih =>
    -- The first call leaves the address alone, and so do the others.
    show (codec.encodeRun plain _ _ calls).1 address = target address
    rw [ih _ _ fun later member => outside later (.tail _ member)]
    exact codec.encode_outside state call plain target (outside call (.head _))

variable (coded) in
/-- The decoder writes nothing outside the fields it is called for. -/
theorem decodeRun_outside (state : State) (target : Address → Cell) (calls : List Call)
    {address : Address} (outside : ∀ call ∈ calls, address ∉ codec.span call) :
    (codec.decodeRun coded state target calls).1 address = target address := by
  -- The first call leaves the address alone, and so do the others.
  induction calls generalizing state target with
  | nil => rfl
  | cons call calls ih =>
    show (codec.decodeRun coded _ _ calls).1 address = target address
    rw [ih _ _ fun later member => outside later (.tail _ member)]
    exact codec.decode_outside state call coded target (outside call (.head _))

/-- An orderly list of calls stays orderly without its first call. -/
theorem Orderly.tail {call : Call} (orderly : codec.Orderly (call :: calls)) :
    codec.Orderly calls where
  apart := orderly.apart.of_cons
  elsewhere := fun later member => orderly.elsewhere later (.tail _ member)

/-- What holds between the memories before the remaining calls are made on both sides. -/
structure Aligned (codec : LockstepCodec Address Cell State Call)
    (plain coded target restored : Address → Cell) (encoder : State) (calls : List Call) :
    Prop where
  /-- The encoder still has the plain fields before it. -/
  fresh : ∀ call ∈ calls, Set.EqOn target plain (codec.span call)
  /-- The decoder is going to read what the encoder is going to write. -/
  source : ∀ call ∈ calls,
    Set.EqOn coded (codec.encodeRun plain encoder target calls).1 (codec.span call)
  /-- The decoder still has the encoded fields before it. -/
  pending : ∀ call ∈ calls, Set.EqOn restored coded (codec.span call)
  /-- All other fields are restored already. -/
  settled : ∀ address, (∀ call ∈ calls, address ∉ codec.span call) →
    restored address = plain address

/-- The first of the remaining calls finds everything its round trip depends on. -/
theorem Aligned.head {call : Call}
    (aligned : codec.Aligned plain coded target restored encoder (call :: calls))
    (orderly : codec.Orderly (call :: calls)) :
    Set.EqOn coded (codec.encode encoder call plain target).1 (codec.span call) ∧
      Set.EqOn restored plain (codec.needs call) := by
  have apart := (List.pairwise_cons.mp orderly.apart).1
  constructor
  · intro address inside
    -- No later call overwrites what this call writes.
    rw [aligned.source call (.head _) inside]
    refine encodeRun_outside (codec.encode encoder call plain target).2
      (codec.encode encoder call plain target).1 calls ?_
    intro later member
    exact Set.disjoint_left.mp (apart later member).1 inside
  · intro address needed
    apply aligned.settled
    intro later member
    rcases List.mem_cons.mp member with rfl | member
    · exact Set.disjoint_left.mp (orderly.elsewhere later (.head _)) needed
    · exact Set.disjoint_left.mp (apart later member).2 needed

/-- A call that restored its field leaves the memories aligned for the calls after it. -/
theorem Aligned.advance {call : Call}
    (aligned : codec.Aligned plain coded target restored encoder (call :: calls))
    (orderly : codec.Orderly (call :: calls))
    (restores : Set.EqOn (codec.decode decoder call coded restored).1 plain (codec.span call)) :
    codec.Aligned plain coded (codec.encode encoder call plain target).1
      (codec.decode decoder call coded restored).1 (codec.encode encoder call plain target).2
      calls := by
  have apart := (List.pairwise_cons.mp orderly.apart).1
  -- A later field lies outside the field of this call.
  have outside : ∀ later ∈ calls, ∀ address ∈ codec.span later, address ∈ (codec.span call)ᶜ :=
    fun later member address inside own =>
      Set.disjoint_left.mp (apart later member).1 own inside
  constructor
  · intro later member address inside
    rw [codec.encode_outside encoder call plain target (outside later member address inside)]
    exact aligned.fresh later (.tail _ member) inside
  · intro later member address inside
    exact aligned.source later (.tail _ member) inside
  · intro later member address inside
    rw [codec.decode_outside decoder call coded restored (outside later member address inside)]
    exact aligned.pending later (.tail _ member) inside
  · intro address remote
    by_cases own : address ∈ codec.span call
    · exact restores own
    · rw [codec.decode_outside decoder call coded restored own]
      apply aligned.settled
      intro later member
      rcases List.mem_cons.mp member with rfl | member
      · exact own
      · exact remote later member

/-- Decoding the remaining calls restores the plain memory and keeps the histories in step. -/
theorem Aligned.decodeRun (synced : codec.Synced encoder decoder) (orderly : codec.Orderly calls)
    (admits : codec.AdmitsRun plain encoder target calls)
    (aligned : codec.Aligned plain coded target restored encoder calls) :
    (codec.decodeRun coded decoder restored calls).1 = plain ∧
      codec.Synced (codec.encodeRun plain encoder target calls).2
        (codec.decodeRun coded decoder restored calls).2 := by
  -- Both sides take their next call together, the memories staying aligned.
  induction calls generalizing encoder decoder target restored with
  | nil => exact ⟨funext fun address => aligned.settled address (by simp), synced⟩
  | cons call calls ih =>
    obtain ⟨source, needs⟩ := aligned.head orderly
    obtain ⟨restores, stillSynced⟩ := codec.decode_encode synced admits.1
      (aligned.fresh call (.head _)) source (aligned.pending call (.head _)) needs
    exact ih stillSynced orderly.tail admits.2 (aligned.advance orderly restores)

/-- Exact calls that cannot all be encoded are not restored. -/
theorem Aligned.decodeRun_ne (sharp : ∀ call ∈ calls, codec.Exact call)
    (synced : codec.Synced encoder decoder) (orderly : codec.Orderly calls)
    (refuses : ¬ codec.AdmitsRun plain encoder target calls)
    (aligned : codec.Aligned plain coded target restored encoder calls) :
    (codec.decodeRun coded decoder restored calls).1 ≠ plain := by
  -- The first field that cannot be encoded comes back wrong, and stays wrong.
  induction calls generalizing encoder decoder target restored with
  | nil => exact absurd trivial refuses
  | cons call calls ih =>
    obtain ⟨source, needs⟩ := aligned.head orderly
    by_cases admits : codec.Admits encoder call plain
    · obtain ⟨restores, stillSynced⟩ := codec.decode_encode synced admits
        (aligned.fresh call (.head _)) source (aligned.pending call (.head _)) needs
      have later : ¬ codec.AdmitsRun plain _ _ calls := fun rest => refuses ⟨admits, rest⟩
      exact ih (fun later member => sharp later (.tail _ member)) stillSynced orderly.tail later
        (aligned.advance orderly restores)
    · have differs := sharp call (.head _) synced admits (aligned.fresh call (.head _)) source
        (aligned.pending call (.head _)) needs
      intro whole
      apply differs
      intro address inside
      have kept := codec.decodeRun_outside coded
        (codec.decode decoder call coded restored).2 (codec.decode decoder call coded restored).1
        calls fun later member => Set.disjoint_left.mp
          ((List.pairwise_cons.mp orderly.apart).1 later member).1 inside
      rw [← kept]
      exact congrFun whole address

/-- Before the first call the memories are aligned. -/
theorem aligned_start (plain : Address → Cell) (encoder : State) (calls : List Call) :
    codec.Aligned plain (codec.encoded encoder calls plain) plain
      (codec.encoded encoder calls plain) encoder calls where
  fresh := fun _ _ => Set.eqOn_refl _ _
  source := fun _ _ => Set.eqOn_refl _ _
  pending := fun _ _ => Set.eqOn_refl _ _
  settled := fun _ outside => encodeRun_outside encoder plain calls outside

/-- Calls that all meet what they can encode make the round trip. -/
theorem roundTrip (synced : codec.Synced encoder decoder) (orderly : codec.Orderly calls)
    (admits : codec.AdmitsRun plain encoder plain calls) :
    codec.RoundTrip encoder decoder calls plain := by
  -- Nothing is written before the first call, so the memories start out aligned.
  obtain ⟨restores, stillSynced⟩ :=
    (aligned_start plain encoder calls).decodeRun synced orderly admits
  exact { restores := restores, synced := stillSynced }

/-- With exact calls, exactly the memories whose fields can all be encoded come back. -/
theorem decoded_encoded_iff (sharp : ∀ call ∈ calls, codec.Exact call)
    (synced : codec.Synced encoder decoder) (orderly : codec.Orderly calls) :
    codec.decoded decoder calls (codec.encoded encoder calls plain) = plain ↔
      codec.AdmitsRun plain encoder plain calls := by
  -- A single call that meets what it cannot encode spoils the memory.
  constructor
  · intro restored
    by_contra refuses
    exact (aligned_start plain encoder calls).decodeRun_ne sharp synced orderly refuses restored
  · intro admits
    exact (roundTrip synced orderly admits).restores

end LockstepCodec
