import Mathlib.Data.Rat.Floor
import Mathlib.Algebra.Order.Field.Rat

/-! The float operations a C program mixes with 16-bit counters, and their exact rational reading. -/

/-- Arithmetic of a C floating-point type, as far as 16-bit integers are mixed with it. -/
class FloatOps (F : Type) where
  /-- A quotient of two integer literals, such as `0` or `0.25f`. -/
  literal : Nat → Nat → F
  /-- The comparison `a < b`, false whenever an operand is no number. -/
  lt : F → F → Bool
  add : F → F → F
  div : F → F → F
  /-- The conversion of a `uint16_t`, exact in every format of at least 16 significant bits. -/
  ofUInt16 : UInt16 → F
  /-- The conversion to `uint16_t`, which discards the fractional part. -/
  toUInt16 : F → UInt16

/-- The extended rationals: floating-point values with no rounding and no smallest step. -/
inductive ExtRat where
  /-- A finite value, kept exactly. -/
  | finite (value : Rat)
  /-- The two infinities. -/
  | infinite (negative : Bool)
  /-- The result of an operation without one. -/
  | nan
  deriving DecidableEq

namespace ExtRat

/-- The rational a finite value is, and zero for the others. -/
def toRat : ExtRat → Rat
  | .finite value => value
  | .infinite _ => 0
  | .nan => 0

/-- Comparison, in which no relation holds of a value that is no number. -/
def lt : ExtRat → ExtRat → Bool
  | .finite first, .finite second => decide (first < second)
  | .finite _, .infinite negative => !negative
  | .infinite negative, .finite _ => negative
  | .infinite first, .infinite second => first && !second
  | .nan, _ => false
  | _, .nan => false

/-- Addition, undefined only for opposite infinities. -/
def add : ExtRat → ExtRat → ExtRat
  | .finite first, .finite second => .finite (first + second)
  | .finite _, .infinite negative => .infinite negative
  | .infinite negative, .finite _ => .infinite negative
  | .infinite first, .infinite second => if first = second then .infinite first else .nan
  | .nan, _ => .nan
  | _, .nan => .nan

/-- Division, in which zero divides a nonzero value to an infinity and itself to no number. -/
def div : ExtRat → ExtRat → ExtRat
  | .finite first, .finite second =>
    if second = 0 then if first = 0 then .nan else .infinite (decide (first < 0))
    else .finite (first / second)
  | .finite _, .infinite _ => .finite 0
  | .infinite negative, .finite second => .infinite (xor negative (decide (second < 0)))
  | .infinite _, .infinite _ => .nan
  | .nan, _ => .nan
  | _, .nan => .nan

end ExtRat

/-- The platform's answer to conversions that C leaves undefined: no number, or out of range. -/
class UndefinedConversion where
  answer : ExtRat → UInt16

/-- A platform whose undefined conversions answer zero. -/
@[reducible] def zeroConversion : UndefinedConversion := ⟨fun _ => 0⟩

namespace ExtRat

variable [UndefinedConversion]

/-- Truncation towards zero of the values whose integer part is a `uint16_t`. -/
def toUInt16 : ExtRat → UInt16
  | .finite value =>
    if -1 < value ∧ value < 65536 then UInt16.ofNat ⌊value⌋₊
    else UndefinedConversion.answer (.finite value)
  | other => UndefinedConversion.answer other

instance : FloatOps ExtRat where
  literal numerator denominator := .finite (numerator / denominator)
  lt := lt
  add := add
  div := div
  ofUInt16 count := .finite count.toNat
  toUInt16 := toUInt16

@[simp] theorem literal_eq (numerator denominator : Nat) :
    FloatOps.literal (F := ExtRat) numerator denominator = .finite (numerator / denominator) := rfl

@[simp] theorem lt_finite (first second : Rat) :
    FloatOps.lt (finite first) (finite second) = decide (first < second) := rfl

@[simp] theorem add_finite (first second : Rat) :
    FloatOps.add (finite first) (finite second) = finite (first + second) := rfl

@[simp] theorem ofUInt16_eq (count : UInt16) :
    FloatOps.ofUInt16 count = finite count.toNat := rfl

/-- Dividing by a nonzero value is exact. -/
theorem div_finite (first : Rat) {second : Rat} (nonzero : second ≠ 0) :
    FloatOps.div (finite first) (finite second) = finite (first / second) :=
  if_neg nonzero

/-- Zero divided by itself is no number. -/
@[simp] theorem div_zero_zero : FloatOps.div (finite 0) (finite 0) = nan := by
  -- Both tests of the division select the undefined case.
  rfl

/-- Nothing lies below a value that is no number. -/
@[simp] theorem lt_nan (value : ExtRat) : FloatOps.lt value nan = false := by
  cases value <;> rfl

/-- A value in range is converted to its integer part. -/
theorem toUInt16_finite {value : Rat} (nonnegative : 0 ≤ value) (small : value < 65536) :
    (FloatOps.toUInt16 (finite value)).toNat = ⌊value⌋₊ := by
  -- The integer part of a value below the range's end fits into the type.
  have floor_small : ⌊value⌋₊ < 65536 := (Nat.floor_lt nonnegative).mpr (by exact_mod_cast small)
  change (toUInt16 (finite value)).toNat = _
  rw [toUInt16, if_pos ⟨by linarith, small⟩, UInt16.toNat_ofNat_of_lt' floor_small]

end ExtRat
