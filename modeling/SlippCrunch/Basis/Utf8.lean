import Mathlib.Algebra.Group.Nat.Defs
import SlippCrunch.Basis.SymbolCode

/-! UTF-8 words of code units of sixteen bits, as a code whose words can be told apart. -/

namespace Utf8

/-- The bytes of a code unit: one, two or three of them, by its size. -/
def word (unit : BitVec 16) : List (BitVec 8) :=
  if unit < 0x80 then [unit.setWidth 8]
  else if unit < 0x800 then [0b110#3 ++ unit.extractLsb' 6 5, 0b10#2 ++ unit.extractLsb' 0 6]
  else [0b1110#4 ++ unit.extractLsb' 12 4, 0b10#2 ++ unit.extractLsb' 6 6,
    0b10#2 ++ unit.extractLsb' 0 6]

/-- The code unit some bytes begin with, whose length the first byte tells. -/
def read : List (BitVec 8) → Option (BitVec 16 × List (BitVec 8))
  | [] => none
  | lead :: rest =>
    if lead.getLsbD 7 = false then some (lead.setWidth 16, rest)
    else if lead.getLsbD 5 = false then
      match rest with
      | second :: rest => some ((lead.extractLsb' 0 5 ++ second.extractLsb' 0 6).setWidth 16, rest)
      | [] => none
    else
      match rest with
      | second :: third :: rest =>
        some (lead.extractLsb' 0 4 ++ second.extractLsb' 0 6 ++ third.extractLsb' 0 6, rest)
      | _ => none

/-- A byte that is not one of the further bytes of a word. -/
def leads (byte : BitVec 8) : Bool := !byte.getLsbD 7 || byte.getLsbD 6

section Words

variable {unit : BitVec 16}

/-- A small code unit has no high bits. -/
theorem high_bits {size : Nat} (small : unit.toNat < 2 ^ size) {bit : Nat} (high : size ≤ bit) :
    unit.getLsbD bit = false :=
  Nat.testBit_lt_two_pow (Nat.lt_of_lt_of_le small (Nat.pow_le_pow_right (by decide) high))

/-- A code unit of one byte is that byte. -/
theorem one_byte (small : unit < 0x80) : (unit.setWidth 8).setWidth 16 = unit := by
  apply BitVec.eq_of_getLsbD_eq
  intro bit inside
  have few : unit.toNat < 2 ^ 7 := by simpa [BitVec.lt_def] using small
  -- The bits that the byte leaves out are all zero.
  have none := @high_bits unit 7 few bit
  rw [BitVec.getLsbD_setWidth, BitVec.getLsbD_setWidth]
  grind

/-- A code unit of two bytes is made of their lower bits. -/
theorem two_bytes (small : unit < 0x800) :
    ((0b110#3 ++ unit.extractLsb' 6 5).extractLsb' 0 5 ++
      (0b10#2 ++ unit.extractLsb' 0 6).extractLsb' 0 6).setWidth 16 = unit := by
  apply BitVec.eq_of_getLsbD_eq
  intro bit inside
  have few : unit.toNat < 2 ^ 11 := by simpa [BitVec.lt_def] using small
  -- Eleven bits are kept, and there are no others.
  have none := @high_bits unit 11 few bit
  simp only [BitVec.getLsbD_setWidth, BitVec.getLsbD_append, BitVec.getLsbD_extractLsb']
  grind

/-- A code unit of three bytes is made of their lower bits. -/
theorem three_bytes (unit : BitVec 16) :
    (0b1110#4 ++ unit.extractLsb' 12 4).extractLsb' 0 4 ++
      (0b10#2 ++ unit.extractLsb' 6 6).extractLsb' 0 6 ++
      (0b10#2 ++ unit.extractLsb' 0 6).extractLsb' 0 6 = unit := by
  -- Bit by bit, the three parts hold the bits of the unit in their order.
  apply BitVec.eq_of_getLsbD_eq
  intro bit inside
  simp only [BitVec.getLsbD_append, BitVec.getLsbD_extractLsb']
  grind

/-- The bits of a byte above those of a code unit are its mark. -/
theorem mark_bit {marked low : Nat} (mark : BitVec marked) (part : BitVec low) (bit : Nat) :
    (mark ++ part).getLsbD (low + bit) = mark.getLsbD bit := by
  rw [BitVec.getLsbD_append, if_neg (by omega), Nat.add_sub_cancel_left]

/-- The only byte of a small code unit is not marked. -/
theorem unmarked (small : unit < 0x80) : (unit.setWidth 8).getLsbD 7 = false := by
  -- The unit has seven bits at most.
  have few : unit.toNat < 2 ^ 7 := by simpa [BitVec.lt_def] using small
  rw [BitVec.getLsbD_setWidth, high_bits few (le_refl 7), Bool.and_false]

/-- Whatever follows the bytes of a code unit, the unit is read from them. -/
theorem read_word (unit : BitVec 16) (rest : List (BitVec 8)) :
    read (word unit ++ rest) = some (unit, rest) := by
  -- The highest bits of the first byte tell how many bytes there are.
  rw [word]
  split
  · rename_i small
    simp only [List.cons_append, List.nil_append, read, if_pos (unmarked small), one_byte small]
  · split
    · rename_i small
      have top : (0b110#3 ++ unit.extractLsb' 6 5).getLsbD 7 = true := mark_bit _ _ 2
      have clear : (0b110#3 ++ unit.extractLsb' 6 5).getLsbD 5 = false := mark_bit _ _ 0
      simp only [List.cons_append, List.nil_append, read, top, clear, Bool.true_eq_false, if_false,
        if_true, two_bytes small]
    · have top : (0b1110#4 ++ unit.extractLsb' 12 4).getLsbD 7 = true := mark_bit _ _ 3
      have next : (0b1110#4 ++ unit.extractLsb' 12 4).getLsbD 5 = true := mark_bit _ _ 1
      simp only [List.cons_append, List.nil_append, read, top, next, Bool.true_eq_false, if_false,
        three_bytes]

/-- A further byte of a word leads none. -/
theorem inner_byte (part : BitVec 6) : leads (0b10#2 ++ part) = false := by
  -- The two bits of the mark tell it from every leading byte.
  have top : (0b10#2 ++ part).getLsbD 7 = true := mark_bit _ _ 1
  have next : (0b10#2 ++ part).getLsbD 6 = false := mark_bit _ _ 0
  rw [leads, top, next]
  rfl

end Words

/-- The code of code units by UTF-8. -/
def code : SymbolCode (BitVec 16) (BitVec 8) := ⟨word, read, read_word⟩

/-- The bytes inside of a word are marked as such. -/
theorem synchronized : code.Synchronized leads where
  shape unit := by
    show ∃ lead inner, word unit = lead :: inner ∧ leads lead = true ∧
      ∀ letter ∈ inner, leads letter = false
    -- Only the further bytes of a word begin with a one and a zero.
    rw [word]
    split
    · rename_i small
      refine ⟨_, _, rfl, ?_, fun letter member => absurd member List.not_mem_nil⟩
      rw [leads, unmarked small]
      rfl
    · split
      · refine ⟨_, _, rfl, ?_, fun letter member => ?_⟩
        · have next : (0b110#3 ++ unit.extractLsb' 6 5).getLsbD 6 = true := mark_bit _ _ 1
          rw [leads, next, Bool.or_true]
        · rw [List.mem_singleton.mp member, inner_byte]
      · refine ⟨_, _, rfl, ?_, fun letter member => ?_⟩
        · have next : (0b1110#4 ++ unit.extractLsb' 12 4).getLsbD 6 = true := mark_bit _ _ 2
          rw [leads, next, Bool.or_true]
        · rcases List.mem_pair.mp member with second | third
          · rw [second, inner_byte]
          · rw [third, inner_byte]

/-- A byte with a mark is not zero. -/
theorem marked_ne_zero {marked low : Nat} {mark : BitVec marked} (set : mark ≠ 0) (part : BitVec low) :
    0 ≠ mark ++ part := by
  -- A byte of zeros would have a mark of zeros.
  intro same
  apply set
  apply BitVec.eq_of_getLsbD_eq
  intro bit inside
  rw [← mark_bit mark part, ← same]
  simp

/-- Only the code unit zero has a zero byte. -/
theorem zero_mem_word {unit : BitVec 16} (zero : 0 ∈ word unit) : unit = 0 := by
  -- Every byte of a longer word is marked, and the only byte of a short one is the unit itself.
  have two : 0b110#3 ≠ 0 := by decide
  have three : 0b1110#4 ≠ 0 := by decide
  have inner : 0b10#2 ≠ 0 := by decide
  rw [word] at zero
  split at zero
  · rename_i small
    rw [← one_byte small, ← List.mem_singleton.mp zero]
    rfl
  · split at zero
    · rcases List.mem_pair.mp zero with first | second
      · exact absurd first (marked_ne_zero two (unit.extractLsb' 6 5))
      · exact absurd second (marked_ne_zero inner (unit.extractLsb' 0 6))
    · rcases List.mem_cons.mp zero with first | further
      · exact absurd first (marked_ne_zero three (unit.extractLsb' 12 4))
      · rcases List.mem_pair.mp further with second | third
        · exact absurd second (marked_ne_zero inner (unit.extractLsb' 6 6))
        · exact absurd third (marked_ne_zero inner (unit.extractLsb' 0 6))

/-- Up to its first zero byte, a text has the code units up to the first zero. -/
theorem takeWhile_text (units : List (BitVec 16)) :
    (code.text units).takeWhile (· ≠ 0) = code.text (units.takeWhile (· ≠ 0)) := by
  -- Unit by unit, a word is kept as a whole or begins with the zero.
  induction units with
  | nil => rfl
  | cons unit units ih =>
    by_cases zero : unit = 0
    · subst zero
      rfl
    · -- A unit that is not zero has no zero byte, so all of its word is kept.
      have nonzero : ∀ byte ∈ code.word unit, decide (byte ≠ 0) = true := by
        intro byte member
        exact decide_eq_true fun none => zero (zero_mem_word (none ▸ member))
      have kept : (unit :: units).takeWhile (· ≠ 0) = unit :: units.takeWhile (· ≠ 0) :=
        List.takeWhile_cons_of_pos (decide_eq_true zero)
      rw [kept, SymbolCode.text_cons, List.takeWhile_append_of_pos nonzero, ih, SymbolCode.text_cons]

end Utf8
