import Mathlib.Algebra.Group.Nat.Defs
import Mathlib.Data.Set.BooleanAlgebra
import Mathlib.Data.Set.Function
import Mathlib.Order.CompletePartialOrder
import Mathlib.Order.Interval.Set.Defs

/-! Memory addressed by bytes, with words stored most significant byte first and blocks copied. -/

/-- One byte. -/
abbrev Byte := BitVec 8

/-- A word of four bytes. -/
abbrev Word := BitVec 32

/-- A number that fits into some bits has no higher ones. -/
theorem testBit_high {number size : Nat} (small : number < 2 ^ size) {bit : Nat} (high : size ≤ bit) :
    number.testBit bit = false :=
  Nat.testBit_lt_two_pow (Nat.lt_of_lt_of_le small (Nat.pow_le_pow_right (by decide) high))

/-- The byte at each address. -/
abbrev Memory := Nat → Byte

namespace Memory

/-- The word whose most significant byte stands at an address. -/
def word (memory : Memory) (address : Nat) : Word :=
  memory address ++ memory (address + 1) ++ memory (address + 2) ++ memory (address + 3)

/-- The byte a word puts at an offset from its address. -/
def wordByte (value : Word) : Nat → Byte
  | 0 => value.extractLsb' 24 8
  | 1 => value.extractLsb' 16 8
  | 2 => value.extractLsb' 8 8
  | _ => value.extractLsb' 0 8

/-- The four bytes of a word stored at an address. -/
def setWord (memory : Memory) (address : Nat) (value : Word) : Memory := fun position =>
  if address ≤ position ∧ position < address + 4 then wordByte value (position - address)
  else memory position

/-- A block of one memory copied into another, as `memcpy` does. -/
def copy (target : Memory) (place : Nat) (source : Memory) (origin length : Nat) : Memory :=
  fun position =>
    if place ≤ position ∧ position < place + length then source (origin + (position - place))
    else target position

/-- The addresses a word occupies. -/
def wordSpan (address : Nat) : Set Nat := {position | address ≤ position ∧ position < address + 4}

theorem mem_wordSpan {address position : Nat} :
    position ∈ wordSpan address ↔ address ≤ position ∧ position < address + 4 := Iff.rfl

variable {memory other : Memory} {address : Nat} {value : Word}

/-- Four bytes put together are taken apart again. -/
theorem wordByte_append (b0 b1 b2 b3 : Byte) (offset : Nat) :
    wordByte (b0 ++ b1 ++ b2 ++ b3) offset =
      match offset with | 0 => b0 | 1 => b1 | 2 => b2 | _ => b3 := by
  -- Each byte is compared bit by bit, every bit lying in exactly one of the four.
  rcases offset with _ | _ | _ | offset <;>
  · simp only [wordByte]
    apply BitVec.eq_of_getLsbD_eq
    intro bit inside
    simp only [BitVec.getLsbD_extractLsb', BitVec.getLsbD_append]
    grind

/-- A word taken apart is put together again. -/
theorem append_wordByte (value : Word) :
    wordByte value 0 ++ wordByte value 1 ++ wordByte value 2 ++ wordByte value 3 = value := by
  apply BitVec.eq_of_getLsbD_eq
  intro bit inside
  -- The four parts cover all bits, each in its place.
  simp only [wordByte, BitVec.getLsbD_append, BitVec.getLsbD_extractLsb']
  grind

/-- A word that was stored is the word that is read. -/
@[simp] theorem word_setWord (memory : Memory) (address : Nat) (value : Word) :
    (memory.setWord address value).word address = value := by
  -- Each of the four bytes lies inside the stored word.
  show setWord memory address value address ++ setWord memory address value (address + 1) ++
    setWord memory address value (address + 2) ++ setWord memory address value (address + 3) = value
  have inside : ∀ offset < 4,
      setWord memory address value (address + offset) = wordByte value offset := by
    intro offset small
    simp only [setWord]
    rw [if_pos (by omega), Nat.add_sub_cancel_left]
  rw [inside 1 (by omega), inside 2 (by omega), inside 3 (by omega)]
  have first := inside 0 (by omega)
  rw [Nat.add_zero] at first
  rw [first, append_wordByte]

/-- Storing a word changes nothing outside it. -/
theorem setWord_of_not_mem {position : Nat} (outside : position ∉ wordSpan address) :
    memory.setWord address value position = memory position := if_neg outside

/-- Storing a word keeps what agrees with another memory outside it. -/
theorem setWord_eqOn {span : Set Nat} (apart : Disjoint span (wordSpan address)) :
    Set.EqOn (memory.setWord address value) memory span := by
  -- No position of the span belongs to the word.
  intro position inside
  exact setWord_of_not_mem (Set.disjoint_left.mp apart inside)

/-- Memories that agree on the four bytes of a word agree on the word. -/
theorem word_congr (agree : Set.EqOn memory other (wordSpan address)) :
    memory.word address = other.word address := by
  -- A word is made of its four bytes, and each of them is the same.
  simp only [word]
  rw [agree (x := address) (by simp [wordSpan]), agree (x := address + 1) (by simp [wordSpan]),
    agree (x := address + 2) (by simp [wordSpan]), agree (x := address + 3) (by simp [wordSpan])]

/-- The byte of a word at an offset is the byte of the memory there. -/
theorem wordByte_word (memory : Memory) {offset : Nat} (small : offset < 4) :
    wordByte (memory.word address) offset = memory (address + offset) := by
  rw [word, wordByte_append]
  -- A word has four bytes, and each is read from its own address.
  rcases offset with _ | _ | _ | _ | offset
  · rfl
  · rfl
  · rfl
  · rfl
  · omega

/-- Memories that agree on a word agree on its four bytes. -/
theorem eqOn_of_word_eq (same : memory.word address = other.word address) :
    Set.EqOn memory other (wordSpan address) := by
  rintro position ⟨atLeast, below⟩
  -- The byte is recovered from the word by its offset.
  obtain ⟨offset, rfl⟩ := Nat.exists_eq_add_of_le atLeast
  have small : offset < 4 := by omega
  rw [← wordByte_word memory small, same, wordByte_word other small]

/-- Agreement on four bytes is agreement on the word they make. -/
theorem eqOn_wordSpan_iff :
    Set.EqOn memory other (wordSpan address) ↔ memory.word address = other.word address :=
  ⟨word_congr, eqOn_of_word_eq⟩

/-- Storing the word that is there already changes nothing. -/
@[simp] theorem setWord_word (memory : Memory) (address : Nat) :
    memory.setWord address (memory.word address) = memory := by
  -- Inside the word its own bytes are stored, and outside nothing is.
  funext position
  by_cases inside : position ∈ wordSpan address
  · exact eqOn_of_word_eq (word_setWord memory address _) inside
  · exact setWord_of_not_mem inside

/-- A stored word is not seen through a word that shares no byte with it. -/
theorem word_setWord_of_disjoint {elsewhere : Nat}
    (apart : Disjoint (wordSpan elsewhere) (wordSpan address)) :
    (memory.setWord address value).word elsewhere = memory.word elsewhere :=
  word_congr (setWord_eqOn apart)

/-- Words that start four bytes apart share no byte. -/
theorem wordSpan_disjoint {first second : Nat} (apart : first + 4 ≤ second ∨ second + 4 ≤ first) :
    Disjoint (wordSpan first) (wordSpan second) := by
  -- A position in both words would lie within four bytes of either start.
  rw [Set.disjoint_left]
  rintro position ⟨atLeast, below⟩ ⟨atLeast', below'⟩
  omega

/-- Of entries behind each other, one ends where any later one begins, or before it. -/
theorem entry_end_le {e later : Nat} (earlier : e < later) (size : Nat) :
    e * size + size ≤ later * size := by
  -- The end of an entry is the start of the next one.
  rw [← Nat.succ_mul]
  exact Nat.mul_le_mul_right size earlier

/-- A copied block holds what its source holds. -/
theorem copy_inside {target source : Memory} {place origin length offset : Nat}
    (inside : offset < length) :
    target.copy place source origin length (place + offset) = source (origin + offset) := by
  simp only [copy]
  rw [if_pos (by omega), Nat.add_sub_cancel_left]

/-- Copying changes nothing outside the copied block. -/
theorem copy_outside {target source : Memory} {place origin length position : Nat}
    (outside : position < place ∨ place + length ≤ position) :
    target.copy place source origin length position = target position := by
  simp only [copy]
  rw [if_neg (by omega)]

/-- A copy depends on the bytes of its source only. -/
theorem copy_congr {target source twin : Memory} {place origin length : Nat}
    (same : ∀ offset < length, source (origin + offset) = twin (origin + offset)) :
    target.copy place source origin length = target.copy place twin origin length := by
  -- Only the positions that are copied to look at the source.
  funext position
  simp only [copy]
  split
  · exact same _ (by omega)
  · rfl

/-- Copying nothing changes nothing. -/
@[simp] theorem copy_zero (target source : Memory) (place origin : Nat) :
    target.copy place source origin 0 = target := by
  funext position
  exact if_neg (by omega)

/-- Copying one byte more writes that byte at the end of the block. -/
theorem copy_succ (target source : Memory) (place origin length : Nat) :
    target.copy place source origin (length + 1) =
      Function.update (target.copy place source origin length) (place + length)
        (source (origin + length)) := by
  funext position
  simp only [copy, Function.update_apply]
  -- The byte behind the shorter block is the only one that differs.
  by_cases last : position = place + length
  · rw [if_pos last, if_pos (by omega), last, Nat.add_sub_cancel_left]
  · rw [if_neg last]
    by_cases inside : place ≤ position ∧ position < place + length
    · rw [if_pos inside, if_pos (by omega)]
    · rw [if_neg inside, if_neg (by omega)]

/-- A copied word depends on the word of its source only. -/
theorem copy_word_congr {target source twin : Memory} {place origin : Nat}
    (same : source.word origin = twin.word origin) :
    target.copy place source origin 4 = target.copy place twin origin 4 :=
  copy_congr fun offset inside => eqOn_of_word_eq same ⟨by omega, by omega⟩

end Memory
