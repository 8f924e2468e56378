import Mathlib.Algebra.Ring.GeomSum
import Mathlib.Data.Int.ModEq
import Mathlib.Data.Fintype.Card
import Mathlib.Data.Nat.Prime.Basic
import Mathlib.Logic.Function.Iterate
import Mathlib.RingTheory.Coprime.Lemmas
import Mathlib.Tactic.LinearCombination
import Mathlib.Tactic.Ring

/-! Linear congruential generators modulo a power of two, and when they run through all words. -/

namespace CongruentialGenerator

/-- One step of the generator, computed in words of a given width. -/
def step {width : Nat} (multiplier increment state : BitVec width) : BitVec width :=
  state * multiplier + increment

/-- The sum of the first powers of the multiplier. -/
def powerSum (multiplier : Int) (count : Nat) : Int := ∑ i ∈ Finset.range count, multiplier ^ i

section PowerSums

variable {multiplier : Int}

@[simp] theorem powerSum_zero : powerSum multiplier 0 = 0 := rfl

theorem powerSum_succ (count : Nat) :
    powerSum multiplier (count + 1) = multiplier * powerSum multiplier count + 1 :=
  geom_sum_succ

theorem powerSum_mul_pred (multiplier : Int) (count : Nat) :
    powerSum multiplier count * (multiplier - 1) = multiplier ^ count - 1 :=
  geom_sum_mul multiplier count

/-- Twice as many powers are the first half of them and the same again, raised. -/
theorem powerSum_double (count : Nat) :
    powerSum multiplier (2 * count) = powerSum multiplier count * (multiplier ^ count + 1) := by
  -- The powers of the second half are those of the first times one power.
  have split : powerSum multiplier (count + count) =
      powerSum multiplier count + multiplier ^ count * powerSum multiplier count := by
    simp only [powerSum, Finset.sum_range_add, pow_add, Finset.mul_sum]
  rw [two_mul, split]
  ring

/-- A multiplier that leaves one modulo four does so in all its powers. -/
theorem pow_mod_four (residue : multiplier % 4 = 1) (count : Nat) : multiplier ^ count % 4 = 1 := by
  -- The multiplier is congruent to one, and so are its powers.
  have congruent : multiplier ≡ 1 [ZMOD 4] := residue
  have raised := congruent.pow count
  rw [one_pow] at raised
  exact raised

/-- The sum of powers of an odd multiplier has the parity of their number. -/
theorem powerSum_mod_two (residue : multiplier % 4 = 1) (count : Nat) :
    powerSum multiplier count % 2 = (count : Int) % 2 := by
  -- Each power is odd, so every one added changes the parity.
  induction count with
  | zero => rfl
  | succ count ih =>
    rw [powerSum_succ, Int.add_emod, Int.mul_emod, ih]
    have odd : multiplier % 2 = 1 := by omega
    rw [odd]
    push_cast
    omega

/-- A power of two divides the sum of powers only if it divides their number. -/
theorem dvd_of_dvd_powerSum (residue : multiplier % 4 = 1) (width : Nat) {count : Nat}
    (divides : (2 : Int) ^ width ∣ powerSum multiplier count) : 2 ^ width ∣ count := by
  -- Each factor of two is split off by halving the number of powers.
  induction width generalizing count with
  | zero => simp
  | succ width ih =>
    have parity := powerSum_mod_two residue count
    have even : (2 : Int) ∣ powerSum multiplier count :=
      (Dvd.intro_left ((2 : Int) ^ width) (pow_succ 2 width).symm).trans divides
    obtain ⟨half, rfl⟩ : 2 ∣ count := by omega
    rw [powerSum_double] at divides
    -- The second factor is twice an odd number.
    have quarter := pow_mod_four residue half
    obtain ⟨rest, isTwice⟩ : ∃ rest, multiplier ^ half + 1 = 2 * (2 * rest + 1) :=
      ⟨(multiplier ^ half + 1) / 4, by omega⟩
    rw [isTwice, pow_succ] at divides
    have halved : (2 : Int) ^ width ∣ powerSum multiplier half * (2 * rest + 1) := by
      apply (mul_dvd_mul_iff_right (two_ne_zero (α := Int))).mp
      rw [mul_assoc, mul_comm (2 * rest + 1) 2]
      exact divides
    have coprime : IsCoprime ((2 : Int) ^ width) (2 * rest + 1) :=
      IsCoprime.pow_left ⟨-rest, 1, by ring⟩
    rw [pow_succ, mul_comm (2 ^ width) 2]
    exact Nat.mul_dvd_mul_left 2 (ih (coprime.dvd_of_dvd_mul_right halved))

end PowerSums

variable {width : Nat} {multiplier increment : BitVec width}

/-- After some steps the state is the raised start and an increment for each of the powers. -/
theorem iterate_step (state : BitVec width) (count : Nat) :
    (step multiplier increment)^[count] state = BitVec.ofInt width
      ((multiplier.toNat : Int) ^ count * state.toNat +
        increment.toNat * powerSum multiplier.toNat count) := by
  induction count with
  | zero => simp [BitVec.ofInt_natCast]
  | succ count ih =>
    -- One more step multiplies what was summed so far and adds one increment.
    have summed : (multiplier.toNat : Int) ^ (count + 1) * state.toNat +
        increment.toNat * powerSum multiplier.toNat (count + 1) =
        ((multiplier.toNat : Int) ^ count * state.toNat +
          increment.toNat * powerSum multiplier.toNat count) * multiplier.toNat +
          increment.toNat := by
      rw [powerSum_succ]
      ring
    rw [Function.iterate_succ_apply', ih, step, summed]
    generalize (multiplier.toNat : Int) ^ count * state.toNat +
      increment.toNat * powerSum multiplier.toNat count = total
    rw [BitVec.ofInt_add, BitVec.ofInt_mul]
    simp only [BitVec.ofInt_natCast, BitVec.ofNat_toNat, BitVec.setWidth_eq]

/-- The multiplier leaves one modulo four and the increment is odd. -/
structure FullPeriod (multiplier increment : BitVec width) : Prop where
  residue : multiplier.toNat % 4 = 1
  odd : increment.toNat % 2 = 1

/-- Under the conditions of a full period no state returns within fewer steps than there are words. -/
theorem FullPeriod.dvd_of_return (full : FullPeriod multiplier increment) {state : BitVec width}
    {count : Nat} (returns : (step multiplier increment)^[count] state = state) :
    2 ^ width ∣ count := by
  -- The distance travelled is the sum of powers times an odd number.
  rw [iterate_step] at returns
  have travelled : ((2 ^ width : Nat) : Int) ∣ powerSum multiplier.toNat count *
      ((multiplier.toNat - 1) * state.toNat + increment.toNat) := by
    have whole := congrArg BitVec.toInt returns
    rw [BitVec.toInt_ofInt, BitVec.toInt_eq_toNat_bmod] at whole
    have difference := Int.bmod_eq_bmod_iff_bmod_sub_eq_zero.mp whole
    have divides := Int.dvd_of_bmod_eq_zero difference
    have geometric := powerSum_mul_pred (multiplier.toNat : Int) count
    convert divides using 1
    linear_combination (state.toNat : Int) * geometric
  have residue : (multiplier.toNat : Int) % 4 = 1 := by
    have := full.residue
    omega
  have odd : ∃ half : Int, ((multiplier.toNat : Int) - 1) * state.toNat + increment.toNat =
      2 * half + 1 := by
    obtain ⟨quarter, isFour⟩ : ∃ quarter, (multiplier.toNat : Int) - 1 = 4 * quarter :=
      ⟨(multiplier.toNat : Int) / 4, by omega⟩
    have := full.odd
    refine ⟨2 * quarter * state.toNat + increment.toNat / 2, ?_⟩
    rw [isFour]
    have halves : (increment.toNat : Int) = 2 * (increment.toNat / 2) + 1 := by omega
    linear_combination halves
  obtain ⟨half, isOdd⟩ := odd
  rw [isOdd] at travelled
  have coprime : IsCoprime ((2 : Int) ^ width) (2 * half + 1) :=
    IsCoprime.pow_left ⟨-half, 1, by ring⟩
  push_cast at travelled
  exact dvd_of_dvd_powerSum residue width (coprime.dvd_of_dvd_mul_right travelled)

/-- A generator whose multiplier is odd never joins two states. -/
theorem FullPeriod.step_injective (full : FullPeriod multiplier increment) :
    Function.Injective (step multiplier increment) := by
  intro first second same
  -- The multiplier is odd, so it cancels modulo the number of words.
  have products : first * multiplier = second * multiplier := by
    simpa only [step, BitVec.add_left_inj] using same
  have congruent := congrArg BitVec.toNat products
  rw [BitVec.toNat_mul, BitVec.toNat_mul] at congruent
  have coprime : Nat.Coprime (2 ^ width) multiplier.toNat := by
    apply Nat.Coprime.pow_left
    rw [Nat.coprime_two_left, Nat.odd_iff]
    have := full.residue
    omega
  have cancelled := Nat.ModEq.cancel_right_of_coprime coprime congruent
  exact BitVec.eq_of_toNat_eq (cancelled.eq_of_lt_of_lt first.isLt second.isLt)

/-- Under the conditions of a full period the states of so many steps are all different. -/
theorem FullPeriod.iterate_injOn (full : FullPeriod multiplier increment) (state : BitVec width) :
    Function.Injective fun count : Fin (2 ^ width) =>
      (step multiplier increment)^[count] state := by
  -- Two steps that meet would mean a return within the steps between them.
  have ordered : ∀ first second : Fin (2 ^ width), first ≤ second →
      (step multiplier increment)^[first] state = (step multiplier increment)^[second] state →
      first = second := by
    intro first second before same
    obtain ⟨between, isLater⟩ := Nat.exists_eq_add_of_le (Fin.le_def.mp before)
    rw [isLater, Function.iterate_add_apply] at same
    have returns := (full.step_injective.iterate first) same
    have divides := full.dvd_of_return returns.symm
    have none : between = 0 := Nat.eq_zero_of_dvd_of_lt divides (by omega)
    exact Fin.ext (by omega)
  intro first second same
  rcases le_total first second with before | after
  · exact ordered first second before same
  · exact (ordered second first after same.symm).symm

/-- Under the conditions of a full period every word is reached after exactly one number of steps. -/
theorem FullPeriod.existsUnique_steps (full : FullPeriod multiplier increment)
    (start target : BitVec width) :
    ∃! count, count < 2 ^ width ∧ (step multiplier increment)^[count] start = target := by
  -- There are as many states on the way as there are words, so none is left out.
  have numbered : Function.Injective fun count : Fin (2 ^ width) =>
      ((step multiplier increment)^[count] start).toFin :=
    fun first second same => full.iterate_injOn start (BitVec.eq_of_toFin_eq same)
  obtain ⟨count, reached⟩ := Finite.surjective_of_injective numbered target.toFin
  have same : (step multiplier increment)^[count] start = target := BitVec.eq_of_toFin_eq reached
  refine ⟨count, ⟨count.isLt, same⟩, ?_⟩
  rintro other ⟨inside, reachedOther⟩
  have equal : (⟨other, inside⟩ : Fin (2 ^ width)) = count :=
    full.iterate_injOn start (reachedOther.trans same.symm)
  exact congrArg Fin.val equal

end CongruentialGenerator
