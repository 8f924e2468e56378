import SlippCrunch.Basis.Utf8
import SlippCrunch.Slippc.Util

/-! Connect codes and name tags of a replay, converted from Shift JIS to UTF-8. -/

namespace SlippCrunch

/-- The conversion table, with the two bytes of a code unit for each offset. -/
abbrev ConvTable := Vector Byte 25088

/-- An output string of fixed length, and where its next byte goes. -/
structure ConvOutput where
  output : List Byte
  indexOutput : Nat

namespace ConvOutput

/-- Write the next byte, which must lie inside of the string. -/
def put (result : ConvOutput) (byte : Byte) : Option ConvOutput :=
  if result.indexOutput < result.output.length then
    some ⟨result.output.set result.indexOutput byte, result.indexOutput + 1⟩
  else none

/-- Convert a code unit to UTF-8. -/
def putUnit (result : ConvOutput) (unicodeValue : BitVec 16) : Option ConvOutput :=
  if unicodeValue < 0x80 then result.put (unicodeValue.setWidth 8)
  else if unicodeValue < 0x800 then do
    let result ← result.put ((0xC0#16 ||| unicodeValue >>> 6).setWidth 8)
    result.put ((0x80#16 ||| unicodeValue &&& 0x3f#16).setWidth 8)
  else do
    let result ← result.put ((0xE0#16 ||| unicodeValue >>> 12).setWidth 8)
    let result ← result.put ((0x80#16 ||| (unicodeValue &&& 0xfff#16) >>> 6).setWidth 8)
    result.put ((0x80#16 ||| unicodeValue &&& 0x3f#16).setWidth 8)

/-- Convert the character at an offset of the table, which must lie inside of the table. -/
def putCharacter (result : ConvOutput) (shiftJISConvTable : ConvTable) (arrayOffset : Nat) :
    Option ConvOutput := do
  let arrayOffset := arrayOffset <<< 1
  let high ← shiftJISConvTable[arrayOffset]?
  let low ← shiftJISConvTable[arrayOffset + 1]?
  result.putUnit (high.setWidth 16 <<< 8 ||| low.setWidth 16)

end ConvOutput

/-- Where the characters of two bytes with a given first byte start, or zero for a single byte. -/
def sectionOffset (first : Byte) : Nat :=
  let arraySection := first >>> 4
  if arraySection = 0x8 then 0x100
  else if arraySection = 0x9 then 0x1100
  else if arraySection = 0xE then 0x2100
  else 0

/-- Convert the rest of the input. -/
def sj2utf8Loop (shiftJISConvTable : ConvTable) : List Byte → ConvOutput → Option ConvOutput
  | [], result => some result
  | first :: rest, result =>
    let arrayOffset := sectionOffset first
    if arrayOffset ≠ 0 then
      match rest with
      -- The second byte of the last character is missing, which ends the conversion.
      | [] => some result
      | second :: rest => do
        let arrayOffset := arrayOffset + (first &&& 0xf).toNat <<< 8 + second.toNat
        sj2utf8Loop shiftJISConvTable rest (← result.putCharacter shiftJISConvTable arrayOffset)
    else do
      let arrayOffset := arrayOffset + first.toNat
      sj2utf8Loop shiftJISConvTable rest (← result.putCharacter shiftJISConvTable arrayOffset)

/-- Convert a string from Shift JIS to UTF-8, unless the table or the output were left. -/
def sj2utf8 (shiftJISConvTable : ConvTable) (input : List Byte) : Option (List Byte) := do
  let result ← sj2utf8Loop shiftJISConvTable input ⟨List.replicate (3 * input.length) 0x20, 0⟩
  -- The unnecessary bytes are removed.
  some (result.output.take result.indexOutput)

/-- The code unit of a character of a name tag, or zero for an unknown one. -/
def tagUnit (b : BitVec 16) : BitVec 16 :=
  let low := (b &&& 0xff).toNat
  if b >>> 8 = 0x82 then
    if low < 0x59 then b - 0x821f
    else if low < 0x80 then b - 0x81ff
    else b - 0x525e
  else if b >>> 8 = 0x83 then
    if low < 0x80 then b - 0x529f
    else b - 0x52a0
  else if b >>> 8 = 0x81 then
    match low with
    | 0x81 => 0x003D
    | 0x5b => 0x30FC
    | 0x7c => 0x002D
    | 0x7b => 0x002B
    | 0x49 => 0x0021
    | 0x48 => 0x003F
    | 0x97 => 0x0040
    | 0x93 => 0x0025
    | 0x95 => 0x0026
    | 0x90 => 0x0024
    | 0x44 => 0x002E
    | 0x60 => 0x301C
    | 0x42 => 0x3002
    | 0x41 => 0x3001
    | 0x40 => 0x3000
    | _ => 0
  else 0

/-- Read so many characters of a name tag, up to the first zero, behind those read before. -/
def decodeTag (array : Memory) : Nat → Nat → List (BitVec 16) → List (BitVec 16)
  | _, 0, tag => tag
  | address, count + 1, tag =>
    let b := tagUnit (readBE2U array address)
    let tag := tag ++ [b]
    if b = 0 then tag else decodeTag array (address + 2) count tag

/-- Convert code units to UTF-8 up to the first zero, unless one is half of a surrogate pair. -/
def toUtf8 (s : List (BitVec 16)) : Option (List Byte) :=
  -- The converter refuses surrogates with an exception.
  if s.any fun unit => decide (0xD800 ≤ unit ∧ unit ≤ 0xDFFF) then none
  else some ((Utf8.code.text s).takeWhile (· ≠ 0))

/-- Convert a name tag of at most eight characters. -/
def decodeShiftJis (array : Memory) (address : Nat) : Option (List Byte) :=
  toUtf8 (decodeTag array address 8 [])

/-- Convert a connect code, with a number sign in place of the first fullwidth one. -/
def parseConnCode (shiftJISConvTable : ConvTable) (input : List Byte) : Option (List Byte) := do
  let s ← sj2utf8 shiftJISConvTable input
  match SymbolCode.find [0xEF, 0xBC, 0x83] s with
  | some index => some (s.take index ++ [0x23] ++ s.drop (index + 3))
  | none => some s

section Bytes

variable {unit : BitVec 16}

/-- The first of two bytes is marked above its five bits. -/
theorem lead_of_two (small : unit < 0x800) :
    (0xC0#16 ||| unit >>> 6).setWidth 8 = 0b110#3 ++ unit.extractLsb' 6 5 := by
  have few : unit.toNat < 2 ^ 11 := by simpa [BitVec.lt_def] using small
  -- The three bits of the mark stand above the five bits of the unit.
  have mark : ∀ bit < 8, (0xC0#16).getLsbD bit =
      ((0b110#3).getLsbD (bit - 5) && decide (5 ≤ bit)) := by
    decide
  apply BitVec.eq_of_getLsbD_eq
  intro bit inside
  have none := @Utf8.high_bits unit 11 few (6 + bit)
  rw [BitVec.getLsbD_setWidth, BitVec.getLsbD_or, BitVec.getLsbD_ushiftRight, BitVec.getLsbD_append,
    BitVec.getLsbD_extractLsb', mark bit inside]
  grind

/-- The first of three bytes is marked above its four bits. -/
theorem lead_of_three :
    (0xE0#16 ||| unit >>> 12).setWidth 8 = 0b1110#4 ++ unit.extractLsb' 12 4 := by
  have mark : ∀ bit < 8, (0xE0#16).getLsbD bit =
      ((0b1110#4).getLsbD (bit - 4) && decide (4 ≤ bit)) := by
    decide
  apply BitVec.eq_of_getLsbD_eq
  intro bit inside
  -- Shifted by twelve, only four bits of the unit are left.
  have none : 16 ≤ 12 + bit → unit.getLsbD (12 + bit) = false := BitVec.getLsbD_of_ge unit _
  rw [BitVec.getLsbD_setWidth, BitVec.getLsbD_or, BitVec.getLsbD_ushiftRight, BitVec.getLsbD_append,
    BitVec.getLsbD_extractLsb', mark bit inside]
  grind

/-- The second of three bytes has the six bits in the middle. -/
theorem middle_byte :
    (0x80#16 ||| (unit &&& 0xfff#16) >>> 6).setWidth 8 = 0b10#2 ++ unit.extractLsb' 6 6 := by
  have mark : ∀ bit < 8, (0x80#16).getLsbD bit =
      ((0b10#2).getLsbD (bit - 6) && decide (6 ≤ bit)) := by
    decide
  -- The mask clears what the shift would bring above the six bits.
  have mask : ∀ bit < 14, (0xfff#16).getLsbD bit = decide (bit < 12) := by decide
  apply BitVec.eq_of_getLsbD_eq
  intro bit inside
  rw [BitVec.getLsbD_setWidth, BitVec.getLsbD_or, BitVec.getLsbD_ushiftRight, BitVec.getLsbD_and,
    BitVec.getLsbD_append, BitVec.getLsbD_extractLsb', mark bit inside, mask (6 + bit) (by omega)]
  grind

/-- The last byte has the six lowest bits. -/
theorem last_byte : (0x80#16 ||| unit &&& 0x3f#16).setWidth 8 = 0b10#2 ++ unit.extractLsb' 0 6 := by
  have mark : ∀ bit < 8, (0x80#16).getLsbD bit =
      ((0b10#2).getLsbD (bit - 6) && decide (6 ≤ bit)) := by
    decide
  -- The mask leaves the six bits below the mark.
  have mask : ∀ bit < 8, (0x3f#16).getLsbD bit = decide (bit < 6) := by decide
  apply BitVec.eq_of_getLsbD_eq
  intro bit inside
  rw [BitVec.getLsbD_setWidth, BitVec.getLsbD_or, BitVec.getLsbD_and, BitVec.getLsbD_append,
    BitVec.getLsbD_extractLsb', mark bit inside, mask bit inside]
  grind

end Bytes

section Conversion

variable (table : ConvTable)

/-- The code unit of a character, by its place in the table. -/
def unitAt (place : Nat) : BitVec 16 := (table[2 * place]?).getD 0 ++ (table[2 * place + 1]?).getD 0

/-- The code units of the characters of a Shift JIS string. -/
def codeUnits : List Byte → List (BitVec 16)
  | [] => []
  | first :: rest =>
    if sectionOffset first ≠ 0 then
      match rest with
      | [] => []
      | second :: rest =>
        unitAt table (sectionOffset first + 256 * (first.toNat % 16) + second.toNat) ::
          codeUnits rest
    else unitAt table first.toNat :: codeUnits rest

/-- A text stands at the front of the output, with room for more behind it. -/
structure ConvOutput.Holds (result : ConvOutput) (text : List Byte) (room : Nat) : Prop where
  index : result.indexOutput = text.length
  front : ∃ filler, result.output = text ++ filler ∧ room ≤ filler.length

variable {table} {result : ConvOutput} {text : List Byte} {room : Nat}

/-- Less room is there as well. -/
theorem ConvOutput.Holds.less (holds : result.Holds text room) {less : Nat} (fewer : less ≤ room) :
    result.Holds text less where
  index := holds.index
  front := by
    obtain ⟨filler, split, enough⟩ := holds.front
    exact ⟨filler, split, Nat.le_trans fewer enough⟩

/-- Where there is room for a byte, it is written behind the text. -/
theorem ConvOutput.put_holds (before : result.Holds text (room + 1)) (byte : Byte) :
    ∃ after, result.put byte = some after ∧ after.Holds (text ++ [byte]) room := by
  obtain ⟨filler, split, enough⟩ := before.front
  cases filler with
  | nil => exact absurd enough (by simp)
  | cons old filler =>
    -- The byte takes the place of the first byte of the filler.
    have inside : result.indexOutput < result.output.length := by
      rw [before.index, split]
      simp
    refine ⟨_, if_pos inside, ⟨?_, filler, ?_, Nat.le_of_succ_le_succ enough⟩⟩
    · simp [before.index]
    · simp [before.index, split]

/-- The bytes written for a code unit are those of its UTF-8 word. -/
theorem ConvOutput.putUnit_holds (before : result.Holds text (room + 3)) (unit : BitVec 16) :
    ∃ after, result.putUnit unit = some after ∧ after.Holds (text ++ Utf8.word unit) room := by
  rw [putUnit, Utf8.word]
  split
  · -- One byte is written, and there was room for three.
    obtain ⟨first, put, holds⟩ := put_holds (before.less (Nat.le_add_right (room + 1) 2))
      (unit.setWidth 8)
    exact ⟨first, put, holds⟩
  · split
    · -- Two bytes are written, the lead and the lower six bits.
      rename_i small
      obtain ⟨first, put, holds⟩ := put_holds (before.less (Nat.le_add_right (room + 2) 1))
        (0b110#3 ++ unit.extractLsb' 6 5)
      obtain ⟨second, put', holds'⟩ := put_holds holds (0b10#2 ++ unit.extractLsb' 0 6)
      rw [lead_of_two small, last_byte, put]
      exact ⟨second, put', by simpa using holds'⟩
    · -- Three bytes are written, and all of the room is used.
      obtain ⟨first, put, holds⟩ := put_holds before (0b1110#4 ++ unit.extractLsb' 12 4)
      obtain ⟨second, put', holds'⟩ := put_holds holds (0b10#2 ++ unit.extractLsb' 6 6)
      obtain ⟨third, put'', holds''⟩ := put_holds holds' (0b10#2 ++ unit.extractLsb' 0 6)
      rw [lead_of_three, middle_byte, last_byte, put, Option.bind_eq_bind, Option.bind_some, put']
      exact ⟨third, put'', by simpa using holds''⟩

/-- Two bytes of the table make a code unit. -/
theorem unit_of_bytes (high low : Byte) :
    high.setWidth 16 <<< 8 ||| low.setWidth 16 = high ++ low := by
  -- Bit by bit, the lower byte fills the lower half.
  apply BitVec.eq_of_getLsbD_eq
  intro bit inside
  rw [BitVec.getLsbD_or, BitVec.getLsbD_shiftLeft, BitVec.getLsbD_setWidth, BitVec.getLsbD_setWidth,
    BitVec.getLsbD_append]
  by_cases lower : bit < 8
  · simp [lower, inside]
  · simp [lower, inside, BitVec.getLsbD_of_ge low bit (by omega), show bit - 8 < 16 by omega]

variable (table) in
/-- The bytes written for a character are those of its code unit. -/
theorem ConvOutput.putCharacter_holds (before : result.Holds text (room + 3)) {place : Nat}
    (inside : place < 12544) :
    ∃ after, result.putCharacter table place = some after ∧
      after.Holds (text ++ Utf8.word (unitAt table place)) room := by
  obtain ⟨after, put, holds⟩ := putUnit_holds before (unitAt table place)
  refine ⟨after, ?_, holds⟩
  have doubled : place <<< 1 = 2 * place := by
    rw [Nat.shiftLeft_eq, Nat.pow_one, Nat.mul_comm]
  -- Both bytes of the character are inside of the table.
  have high : table[2 * place]? = some table[2 * place] := Vector.getElem?_eq_getElem (by omega)
  have low : table[2 * place + 1]? = some table[2 * place + 1] :=
    Vector.getElem?_eq_getElem (by omega)
  have unit : unitAt table place = table[2 * place] ++ table[2 * place + 1] := by
    rw [unitAt, high, low]
    rfl
  simp only [putCharacter, doubled, high, low, Option.bind_eq_bind, Option.bind_some, unit_of_bytes]
  rw [← unit]
  exact put

/-- The characters of two bytes lie behind those of one byte, and inside of the table. -/
theorem sectionOffset_lt (first second : Byte) :
    sectionOffset first + 256 * (first.toNat % 16) + second.toNat < 12544 := by
  -- The last section begins early enough for all of its places.
  have small := second.isLt
  have places : sectionOffset first ≤ 0x2100 := by
    rw [sectionOffset]
    split
    · decide
    · split
      · decide
      · split <;> decide
  omega

/-- The lower half of a byte, shifted to the place of the higher byte. -/
theorem lower_half (first : Byte) : (first &&& 0xf).toNat <<< 8 = 256 * (first.toNat % 16) := by
  -- Masking by fifteen leaves the remainder by sixteen.
  have half : (first &&& 0xf).toNat = first.toNat % 16 := by
    rw [BitVec.toNat_and]
    exact Nat.and_two_pow_sub_one_eq_mod first.toNat 4
  rw [half, Nat.shiftLeft_eq, Nat.mul_comm]

variable (table) in
/-- Converting the rest of the input writes its code units behind the text. -/
theorem sj2utf8Loop_holds (input : List Byte) {result : ConvOutput} {text : List Byte}
    (before : result.Holds text (3 * input.length)) :
    ∃ after, sj2utf8Loop table input result = some after ∧
      after.Holds (text ++ Utf8.code.text (codeUnits table input)) 0 := by
  -- Each character takes at most three bytes of the room that its one or two bytes came with.
  fun_induction codeUnits table input generalizing result text with
  | case1 => exact ⟨result, rfl, by simpa using before⟩
  | case2 first two =>
    refine ⟨result, ?_, by simpa using before.less (Nat.zero_le _)⟩
    rw [sj2utf8Loop, if_pos two]
  | case3 first two second rest ih =>
    have enough : 3 * rest.length + 3 ≤ 3 * (first :: second :: rest).length := by
      simp only [List.length_cons]
      omega
    obtain ⟨next, put, holds⟩ := ConvOutput.putCharacter_holds table
      (before.less enough) (sectionOffset_lt first second)
    obtain ⟨after, looped, holds'⟩ := ih holds
    refine ⟨after, ?_, by simpa [Utf8.code] using holds'⟩
    simp only [sj2utf8Loop, if_pos two, lower_half, put, Option.bind_eq_bind, Option.bind_some,
      looped]
  | case4 first rest one ih =>
    have enough : 3 * rest.length + 3 ≤ 3 * (first :: rest).length := by
      simp only [List.length_cons]
      omega
    have place : first.toNat < 12544 := Nat.lt_trans first.isLt (by decide)
    obtain ⟨next, put, holds⟩ := ConvOutput.putCharacter_holds table
      (before.less enough) place
    obtain ⟨after, looped, holds'⟩ := ih holds
    refine ⟨after, ?_, by simpa [Utf8.code] using holds'⟩
    have single : sectionOffset first = 0 := not_not.mp one
    unfold sj2utf8Loop
    simp only [single, ne_eq, not_true_eq_false, if_false, Nat.zero_add, put, Option.bind_eq_bind,
      Option.bind_some, looped]

/-- No conversion leaves the table or the output, and each one writes the code units in UTF-8. -/
theorem sj2utf8_eq (table : ConvTable) (input : List Byte) :
    sj2utf8 table input = some (Utf8.code.text (codeUnits table input)) := by
  -- The output starts with three bytes of room for each byte of the input.
  have before :
      ConvOutput.Holds ⟨List.replicate (3 * input.length) 0x20, 0⟩ [] (3 * input.length) :=
    ⟨rfl, _, rfl, by simp⟩
  obtain ⟨after, looped, holds⟩ := sj2utf8Loop_holds table input before
  obtain ⟨filler, split, -⟩ := holds.front
  rw [sj2utf8, looped, Option.bind_eq_bind, Option.bind_some, holds.index, split, List.take_left,
    List.nil_append]

/-- A connect code is converted with its first fullwidth number sign replaced. -/
theorem parseConnCode_eq (table : ConvTable) (input : List Byte) :
    parseConnCode table input =
      some (Utf8.code.text ((codeUnits table input).replace 0xFF03 0x23)) := by
  -- The bytes looked for are one word, so they are found where a character has them.
  have fullwidth : Utf8.code.word 0xFF03 = [0xEF, 0xBC, 0x83] := by decide
  have sign : Utf8.code.word 0x23 = [0x23] := by decide
  have replaced := Utf8.synchronized.replaceFirst_text 0xFF03 0x23 (codeUnits table input)
  rw [parseConnCode, sj2utf8_eq, Option.bind_eq_bind, Option.bind_some, ← replaced, fullwidth, sign,
    SymbolCode.replaceFirst]
  cases SymbolCode.find [0xEF, 0xBC, 0x83] (Utf8.code.text (codeUnits table input)) <;> rfl

/-- A list with one new item came from itself, or from the old item in its place. -/
theorem replace_eq_iff {α : Type} [DecidableEq α] {old new : α} {before after items : List α}
    (different : old ≠ new) (without : old ∉ before ++ after) (only : new ∉ before ++ after) :
    items.replace old new = before ++ new :: after ↔
      items = before ++ new :: after ∨ items = before ++ old :: after := by
  -- The items that become the text are the text itself and the one with the old item in it.
  have apart := not_or.mp (mt List.mem_append.mpr only)
  have none := not_or.mp (mt List.mem_append.mpr without)
  constructor
  · intro same
    by_cases member : old ∈ items
    · -- The first old item was replaced, and there is but one new item it can have become.
      obtain ⟨front, back, rfl, first⟩ := List.eq_append_cons_of_mem member
      rw [List.replace_append_right first, List.replace_cons_self] at same
      obtain ⟨rfl, -, rfl⟩ := (List.append_cons_inj_of_notMem apart.1 apart.2).mp same.symm
      exact .inr rfl
    · rw [List.replace_of_not_mem member] at same
      exact .inl same
  · rintro (rfl | rfl)
    · -- Without the old item nothing is replaced.
      apply List.replace_of_not_mem
      simp [none.1, none.2, different]
    · rw [List.replace_append_right none.1, List.replace_cons_self]

/--
Every input is converted, and a code is recognised by its characters with a sign of either width.

The parts before and behind the sign are free of number signs themselves.
-/
theorem parseConnCode_eq_iff (table : ConvTable) (input : List Byte) :
    parseConnCode table input =
        some (Utf8.code.text ((codeUnits table input).replace 0xFF03 0x23)) ∧
      ∀ name number : List (BitVec 16), 0xFF03 ∉ name ++ number → 0x23 ∉ name ++ number →
        (parseConnCode table input = some (Utf8.code.text (name ++ 0x23 :: number)) ↔
          codeUnits table input = name ++ 0x23 :: number ∨
            codeUnits table input = name ++ 0xFF03 :: number) := by
  refine ⟨parseConnCode_eq table input, fun name number narrow unsigned => ?_⟩
  -- A text tells its characters, so only what was replaced is left to find out.
  rw [parseConnCode_eq, Option.some_inj, Utf8.synchronized.text_injective.eq_iff]
  exact replace_eq_iff (by decide) narrow unsigned

/-- A table for the characters of one byte and for the fullwidth number sign. -/
def sampleTable : ConvTable := Vector.ofFn fun place =>
  if place = 2 * 0x294 then 0xFF
  else if place = 2 * 0x294 + 1 then 0x03
  else if place % 2 = 1 then BitVec.ofNat 8 (place / 2)
  else 0

/-- A connect code with a fullwidth number sign is recognised. -/
theorem sampleCode_recognised :
    parseConnCode sampleTable [0x59, 0x4F, 0x81, 0x94, 0x37] =
      some (Utf8.code.text ([0x59, 0x4F] ++ 0x23 :: [0x37])) :=
  ((parseConnCode_eq_iff sampleTable _).2 _ _ (by decide) (by decide)).mpr
    (.inr (by simp [codeUnits, sectionOffset, unitAt, sampleTable]))

end Conversion

section Tags

/-- No character of a name tag is taken for half of a surrogate pair. -/
theorem tagUnit_not_surrogate (b : BitVec 16) : ¬(0xD800 ≤ tagUnit b ∧ tagUnit b ≤ 0xDFFF) := by
  -- In each range of characters the subtraction leaves a unit well below, or just below the top.
  have high : ∀ page : BitVec 16, b >>> 8 = page → b.toNat / 256 = page.toNat := by
    rintro page rfl
    simp [Nat.shiftRight_eq_div_pow]
  simp only [tagUnit]
  split
  · have page := high 0x82 ‹_›
    split
    · bv_omega
    · split <;> bv_omega
  · split
    · have page := high 0x83 ‹_›
      split <;> bv_omega
    · split
      · split <;> decide
      · decide

variable (array : Memory)

/-- The code units of the characters of a name tag. -/
def tagUnits (address count : Nat) : List (BitVec 16) :=
  (List.range count).map fun n => tagUnit (readBE2U array (address + 2 * n))

/-- The first character of a name tag is followed by those behind it. -/
theorem tagUnits_succ (address count : Nat) :
    tagUnits array address (count + 1) =
      tagUnit (readBE2U array address) :: tagUnits array (address + 2) count := by
  simp only [tagUnits, List.range_succ_eq_map, List.map_cons, List.map_map, Nat.mul_zero,
    Nat.add_zero]
  congr 1
  -- The later characters are counted from the second one on.
  apply List.map_congr_left
  intro n inside
  simp only [Function.comp_apply, Nat.succ_eq_add_one]
  congr 2
  omega

/-- Reading stops at the first zero, which is the last unit read. -/
theorem decodeTag_eq (address count : Nat) (tag : List (BitVec 16)) :
    ∃ units, decodeTag array address count tag = tag ++ units ∧
      units.takeWhile (· ≠ 0) = (tagUnits array address count).takeWhile (· ≠ 0) ∧
      ∀ unit ∈ units, unit ∈ tagUnits array address count := by
  -- The tag grows at its end, so what is read is stated behind any tag read before.
  induction count generalizing address tag with
  | zero => exact ⟨[], by simp [decodeTag], rfl, by simp⟩
  | succ count ih =>
    rw [tagUnits_succ]
    by_cases last : tagUnit (readBE2U array address) = 0
    · -- The zero is put down before the loop ends.
      refine ⟨[0], ?_, ?_, ?_⟩
      · simp only [decodeTag, last, if_true]
      · simp [last]
      · simp [last]
    · obtain ⟨units, decoded, kept, among⟩ :=
        ih (address + 2) (tag ++ [tagUnit (readBE2U array address)])
      refine ⟨tagUnit (readBE2U array address) :: units, ?_, ?_, ?_⟩
      · simp only [decodeTag, if_neg last, decoded, List.append_assoc, List.singleton_append]
      · rw [List.takeWhile_cons_of_pos (by simpa using last), kept,
          List.takeWhile_cons_of_pos (by simpa using last)]
      · intro unit member
        rcases List.mem_cons.mp member with rfl | member
        · exact List.mem_cons_self ..
        · exact List.mem_cons_of_mem _ (among unit member)

/-- A name tag is always converted, up to the first character that is unknown. -/
theorem decodeShiftJis_eq (address : Nat) :
    decodeShiftJis array address =
      some (Utf8.code.text ((tagUnits array address 8).takeWhile (· ≠ 0))) := by
  obtain ⟨units, decoded, kept, among⟩ := decodeTag_eq array address 8 []
  -- No unit is half of a pair, so the conversion does not fail.
  have convertible : ¬ (units.any fun unit => decide (0xD800 ≤ unit ∧ unit ≤ 0xDFFF)) = true := by
    rw [List.any_eq_true]
    rintro ⟨unit, member, surrogate⟩
    obtain ⟨n, -, rfl⟩ := List.mem_map.mp (among unit member)
    exact tagUnit_not_surrogate _ (of_decide_eq_true surrogate)
  rw [decodeShiftJis, decoded, List.nil_append, toUtf8, if_neg convertible, Utf8.takeWhile_text,
    kept]

end Tags

end SlippCrunch
