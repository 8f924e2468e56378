import SlippCrunch.Basis.ByteMemory

/-! Bits of one memory combined one by one into the bits of another. -/

namespace Memory

/-- A bit of a memory: the address of its byte, and its place in that byte counted from the end. -/
structure Spot where
  address : Nat
  place : Nat
  deriving DecidableEq

/-- The bit at a spot. -/
def bitAt (memory : Memory) (spot : Spot) : Bool := (memory spot.address).getLsbD spot.place

/-- A value combined into one bit of a memory. -/
def flipAt (memory : Memory) (spot : Spot) (value : Bool) : Memory :=
  Function.update memory spot.address
    (memory spot.address ^^^ ((BitVec.ofBool value).setWidth 8 <<< spot.place))

/-- Memories with the same bits are the same. -/
theorem eq_of_bitAt {memory other : Memory} {address : Nat}
    (same : ∀ place < 8, memory.bitAt ⟨address, place⟩ = other.bitAt ⟨address, place⟩) :
    memory address = other address :=
  BitVec.eq_of_getLsbD_eq fun place inside => same place inside

/-- Combining a value into a bit changes that bit only. -/
theorem bitAt_flipAt {memory : Memory} {spot other : Spot} {value : Bool} (small : other.place < 8) :
    (memory.flipAt spot value).bitAt other =
      (memory.bitAt other ^^ (decide (other = spot) && value)) := by
  obtain ⟨address, place⟩ := spot
  obtain ⟨address', place'⟩ := other
  simp only [bitAt, flipAt, Function.update_apply, Spot.mk.injEq] at small ⊢
  by_cases same : address' = address
  · subst same
    rw [if_pos rfl, BitVec.getLsbD_xor, BitVec.getLsbD_shiftLeft, BitVec.getLsbD_setWidth]
    congr 1
    -- The shifted byte has one bit at most, which stands where it was shifted to.
    by_cases own : place' = place
    · subst own
      simp [small]
    · have past : place' < place ∨ 1 ≤ place' - place := by omega
      rcases past with before | behind
      · simp [before, own]
      · simp [own, BitVec.getLsbD_of_ge (BitVec.ofBool value) (place' - place) behind]
  · rw [if_neg same]
    simp [same]

/-- The first so many values were combined into the bits at their spots, and into no others. -/
structure Scattered (dest : Nat → Spot) (source : Nat → Bool) (count : Nat)
    (before after : Memory) : Prop where
  hit : ∀ index < count, after.bitAt (dest index) = (before.bitAt (dest index) ^^ source index)
  missed : ∀ spot : Spot, spot.place < 8 → (∀ index < count, dest index ≠ spot) →
    after.bitAt spot = before.bitAt spot

variable {dest : Nat → Spot} {source : Nat → Bool} {count : Nat} {before after : Memory}

/-- Before the first value nothing is changed. -/
theorem Scattered.zero (dest : Nat → Spot) (source : Nat → Bool) (memory : Memory) :
    Scattered dest source 0 memory memory where
  hit := fun _ none => absurd none (Nat.not_lt_zero _)
  missed := fun _ _ _ => rfl

/-- One value more is combined into a spot that none of the earlier values had. -/
theorem Scattered.succ (scattered : Scattered dest source count before after)
    (small : ∀ index ≤ count, (dest index).place < 8)
    (apart : ∀ index < count, dest index ≠ dest count) :
    Scattered dest source (count + 1) before (after.flipAt (dest count) (source count)) := by
  constructor
  · intro index inside
    rw [bitAt_flipAt (small index (by omega))]
    -- The spot of the new value was missed by the earlier ones, and theirs are missed by it.
    by_cases last : index = count
    · subst last
      rw [decide_eq_true rfl, Bool.true_and, scattered.missed _ (small index (by omega)) apart]
    · rw [decide_eq_false (apart index (by omega)), Bool.false_and, Bool.xor_false]
      exact scattered.hit index (by omega)
  · intro spot inside untouched
    rw [bitAt_flipAt inside, decide_eq_false (untouched count (by omega)).symm, Bool.false_and,
      Bool.xor_false]
    exact scattered.missed spot inside fun index below => untouched index (by omega)

/-- Bytes without any of the spots are unchanged. -/
theorem Scattered.unchanged (scattered : Scattered dest source count before after) {address : Nat}
    (elsewhere : ∀ index < count, (dest index).address ≠ address) : after address = before address :=
  eq_of_bitAt fun place inside => scattered.missed ⟨address, place⟩ inside fun index below same =>
    elsewhere index below (congrArg Spot.address same)

end Memory
