import SlippCrunch.Basis.ByteMemory
import SlippCrunch.Basis.SymbolCode

/-! Strings escaped for the JSON files of slippc, and how a JSON string is read. -/

namespace SlippCrunch

/-- The hexadecimal digits of a number, filled up to four with zeros. -/
def hexWidth4 (value : Nat) : List Byte :=
  let digits := (Nat.toDigits 16 value).map fun digit => BitVec.ofNat 8 digit.toNat
  List.replicate (4 - digits.length) 0x30 ++ digits

/-- What one character is written as. -/
def escapeChar (c : Byte) : List Byte :=
  if c = 0x22 then [0x5C, 0x22]
  else if c = 0x5C then [0x5C, 0x5C]
  else if c = 0x08 then [0x5C, 0x62]
  else if c = 0x0C then [0x5C, 0x66]
  else if c = 0x0A then [0x5C, 0x6E]
  else if c = 0x0D then [0x5C, 0x72]
  else if c = 0x09 then [0x5C, 0x74]
  -- Whether or not characters are signed, those from 0x80 on are none of the control characters.
  else if c ≤ 0x1f then [0x5C, 0x75] ++ hexWidth4 c.toNat
  else [c]

/-- Escape a string for JSON. -/
def escapeJson (s : List Byte) : List Byte := s.flatMap escapeChar

/-- The value of a hexadecimal digit. -/
def hexValue (digit : Byte) : Option Nat :=
  if 0x30 ≤ digit ∧ digit ≤ 0x39 then some (digit.toNat - 0x30)
  else if 0x61 ≤ digit ∧ digit ≤ 0x66 then some (digit.toNat - 0x57)
  else if 0x41 ≤ digit ∧ digit ≤ 0x46 then some (digit.toNat - 0x37)
  else none

/-- The number of four hexadecimal digits. -/
def hexNumber (digits : List Byte) : Option Nat := do
  let values ← digits.mapM hexValue
  if values.length = 4 then some (values.foldl (fun value digit => 16 * value + digit) 0) else none

/-- The character that one of the short escapes stands for. -/
def shortEscape (c : Byte) : Option Char :=
  if c = 0x22 ∨ c = 0x5C ∨ c = 0x2F then some (.ofNat c.toNat)
  else if c = 0x62 then some (.ofNat 0x08)
  else if c = 0x66 then some (.ofNat 0x0C)
  else if c = 0x6E then some (.ofNat 0x0A)
  else if c = 0x72 then some (.ofNat 0x0D)
  else if c = 0x74 then some (.ofNat 0x09)
  else none

/-- Read the character that a code unit in four digits, or a pair of such units, stands for. -/
def unicodeEscape (letters : List Byte) : Option (Char × List Byte) := do
  let unit ← hexNumber (letters.take 4)
  let behind := letters.drop 4
  if unit.isValidChar then some (.ofNat unit, behind)
  -- The first half of a pair is followed by another escape with the second half.
  else if unit < 0xDC00 ∧ behind.take 2 = [0x5C, 0x75] then
    let low ← hexNumber ((behind.drop 2).take 4)
    if 0xDC00 ≤ low ∧ low < 0xE000 then
      some (.ofNat (0x10000 + (unit - 0xD800) * 0x400 + (low - 0xDC00)), behind.drop 6)
    else none
  else none

/-- The bytes of a character in UTF-8. -/
def utf8Bytes (c : Char) : List Byte := (String.utf8EncodeChar c).map UInt8.toBitVec

/-- The character whose bytes in UTF-8 stand first, if there is one. -/
def utf8Char (letters : List Byte) : Option Char :=
  (letters.map UInt8.ofBitVec).toByteArray.utf8DecodeChar? 0

/--
Read one character of a JSON string.

A backslash starts an escape, quotes and control characters must not stand in a string, and all other
characters stand for themselves in UTF-8.
-/
def readCharacter : List Byte → Option (Char × List Byte)
  | [] => none
  | c :: rest =>
    if c = 0x5C then
      match rest with
      | [] => none
      | kind :: rest =>
        if kind = 0x75 then unicodeEscape rest
        else (shortEscape kind).map fun char => (char, rest)
    else if c = 0x22 ∨ c ≤ 0x1f then none
    else (utf8Char (c :: rest)).map fun char => (char, (c :: rest).drop char.utf8Size)

section Utf8

/-- Whatever follows its bytes, a character is read from them. -/
theorem utf8Char_utf8Bytes (c : Char) (rest : List Byte) : utf8Char (utf8Bytes c ++ rest) = some c := by
  -- The bytes of the text are those of the character and those behind it.
  have bytes : (utf8Bytes c ++ rest).map UInt8.ofBitVec =
      String.utf8EncodeChar c ++ rest.map UInt8.ofBitVec := by
    simp [utf8Bytes, Function.comp_def]
  rw [utf8Char, bytes, List.toByteArray_append]
  exact ByteArray.utf8DecodeChar?_utf8EncodeChar_append

/-- A character has as many bytes as its size in UTF-8 says. -/
theorem length_utf8Bytes (c : Char) : (utf8Bytes c).length = c.utf8Size := by
  rw [utf8Bytes, List.length_map, String.length_utf8EncodeChar]

/-- A small character is its only byte. -/
theorem utf8Bytes_small {c : Char} (small : c.toNat < 0x80) :
    utf8Bytes c = [BitVec.ofNat 8 c.toNat] := by
  -- The encoding asks for the number of the character first.
  have least : c.val.toNat ≤ 0x7f := Nat.le_of_lt_succ small
  simp only [utf8Bytes, String.utf8EncodeChar, if_pos least]
  rfl

/-- A larger character has none but large bytes. -/
theorem utf8Bytes_large {c : Char} (large : ¬ c.toNat < 0x80) :
    ∀ byte ∈ utf8Bytes c, 0x80 ≤ byte := by
  have more : ¬ c.val.toNat ≤ 0x7f := fun least => large (Nat.lt_succ_of_le least)
  -- Each byte is the remainder of a number by some power of two, added to its mark.
  have marked : ∀ (part mark : Nat), 0x80 ≤ mark → mark + part < 0x100 →
      (0x80 : Byte) ≤ (UInt8.ofNat (part + mark)).toBitVec := by
    intro part mark high few
    rw [BitVec.le_def]
    show 0x80 ≤ (UInt8.ofNat (part + mark)).toNat
    rw [UInt8.toNat_ofNat', Nat.mod_eq_of_lt (by omega)]
    omega
  simp only [utf8Bytes, String.utf8EncodeChar, if_neg more]
  split
  · simp only [List.map_cons, List.map_nil, List.mem_cons, List.not_mem_nil, or_false, forall_eq_or_imp,
      forall_eq]
    exact ⟨marked _ _ (by omega) (by omega), marked _ _ (by omega) (by omega)⟩
  · split
    · simp only [List.map_cons, List.map_nil, List.mem_cons, List.not_mem_nil, or_false,
        forall_eq_or_imp, forall_eq]
      exact ⟨marked _ _ (by omega) (by omega), marked _ _ (by omega) (by omega),
        marked _ _ (by omega) (by omega)⟩
    · simp only [List.map_cons, List.map_nil, List.mem_cons, List.not_mem_nil, or_false,
        forall_eq_or_imp, forall_eq]
      exact ⟨marked _ _ (by omega) (by omega), marked _ _ (by omega) (by omega),
        marked _ _ (by omega) (by omega), marked _ _ (by omega) (by omega)⟩

end Utf8

/-- A control character is read from its four digits. -/
theorem hexNumber_hexWidth4 : ∀ c : Byte, c ≤ 0x1f →
    (hexWidth4 c.toNat).length = 4 ∧ hexNumber (hexWidth4 c.toNat) = some c.toNat := by
  -- There are only that many bytes to try.
  decide +kernel

/-- What a small byte is written as: itself, an escape of four digits, or a short escape. -/
theorem escapeChar_small : ∀ c : Byte, c < 0x80 →
    (escapeChar c = [c] ∧ c ≠ 0x5C ∧ c ≠ 0x22 ∧ ¬ c ≤ 0x1f) ∨
    (c ≤ 0x1f ∧ escapeChar c = [0x5C, 0x75] ++ hexWidth4 c.toNat) ∨
    ∃ kind ∈ ([0x22, 0x5C, 0x62, 0x66, 0x6E, 0x72, 0x74] : List Byte),
      escapeChar c = [0x5C, kind] ∧ shortEscape kind = some (.ofNat c.toNat) := by
  -- There are only that many bytes to try.
  decide +kernel

/-- A large byte is written as itself. -/
theorem escapeChar_large : ∀ c : Byte, 0x80 ≤ c →
    escapeChar c = [c] ∧ c ≠ 0x5C ∧ c ≠ 0x22 ∧ ¬ c ≤ 0x1f := by
  -- There are only that many bytes to try.
  decide +kernel

/-- A character that stands for itself is read from its bytes. -/
theorem readCharacter_utf8Bytes {c : Char} {first : Byte} {others : List Byte}
    (bytes : utf8Bytes c = first :: others)
    (plain : first ≠ 0x5C ∧ first ≠ 0x22 ∧ ¬ first ≤ 0x1f) (rest : List Byte) :
    readCharacter (utf8Bytes c ++ rest) = some (c, rest) := by
  -- Its first byte starts no escape, so the whole character is read as it stands.
  have read := utf8Char_utf8Bytes c rest
  have behind : (utf8Bytes c ++ rest).drop c.utf8Size = rest := List.drop_left' (length_utf8Bytes c)
  rw [bytes, List.cons_append] at read behind ⊢
  show (if first = 0x5C then _ else if first = 0x22 ∨ first ≤ 0x1f then none else
    (utf8Char (first :: (others ++ rest))).map fun char =>
      (char, (first :: (others ++ rest)).drop char.utf8Size)) = _
  rw [if_neg plain.1, if_neg (not_or.mpr plain.2), read, Option.map_some, behind]

/-- Whatever follows, an escaped character is read as itself. -/
theorem readCharacter_escapeJson (c : Char) (rest : List Byte) :
    readCharacter (escapeJson (utf8Bytes c) ++ rest) = some (c, rest) := by
  by_cases small : c.toNat < 0x80
  · -- Only a character of one byte is written otherwise than by its bytes.
    have number : (BitVec.ofNat 8 c.toNat).toNat = c.toNat := by
      rw [BitVec.toNat_ofNat, Nat.mod_eq_of_lt (by omega)]
    have isSmall : BitVec.ofNat 8 c.toNat < 0x80 := by
      rw [BitVec.lt_def, number]
      exact small
    have single := utf8Bytes_small small
    have written : escapeJson (utf8Bytes c) = escapeChar (BitVec.ofNat 8 c.toNat) := by
      rw [single, escapeJson, List.flatMap_singleton]
    rw [written]
    rcases escapeChar_small _ isSmall with plain | ⟨control, long⟩ | ⟨kind, member, short, stands⟩
    · rw [plain.1, ← single]
      exact readCharacter_utf8Bytes single plain.2 rest
    · obtain ⟨four, stands⟩ := hexNumber_hexWidth4 _ control
      rw [long, List.append_assoc]
      rw [number] at four stands ⊢
      show unicodeEscape (hexWidth4 c.toNat ++ rest) = _
      have valid : c.toNat.isValidChar := c.valid
      simp only [unicodeEscape, List.take_left' four, stands, List.drop_left' four, valid, if_true,
        Option.bind_eq_bind, Option.bind_some, Char.ofNat_toNat]
    · have other : kind ≠ 0x75 := by
        rintro rfl
        exact absurd member (by decide)
      rw [number, Char.ofNat_toNat] at stands
      rw [short]
      show (if kind = 0x75 then _ else (shortEscape kind).map fun char => (char, rest)) = _
      rw [if_neg other, stands, Option.map_some]
  · -- The bytes of all others are large, and are written as they are.
    have large := utf8Bytes_large small
    have written : ∀ bytes : List Byte, (∀ byte ∈ bytes, 0x80 ≤ byte) → escapeJson bytes = bytes := by
      intro bytes all
      induction bytes with
      | nil => rfl
      | cons byte bytes ih =>
        obtain ⟨first, others⟩ := List.forall_mem_cons.mp all
        rw [escapeJson, List.flatMap_cons, (escapeChar_large byte first).1]
        exact congrArg (byte :: ·) (ih others)
    rw [written _ large]
    cases bytes : utf8Bytes c with
    | nil =>
      have size := length_utf8Bytes c
      rw [bytes] at size
      exact absurd size (Nat.ne_of_lt c.utf8Size_pos)
    | cons first others =>
      rw [← bytes]
      exact readCharacter_utf8Bytes bytes
        (escapeChar_large first (large first (bytes ▸ List.mem_cons_self))).2 rest

/-- The code of characters by their bytes, escaped. -/
def jsonCode : SymbolCode Char Byte where
  word c := escapeJson (utf8Bytes c)
  read := readCharacter
  read_word := readCharacter_escapeJson

/-- No escaped character starts with a quote. -/
theorem escapeJson_head (c : Char) (rest : List Byte) :
    (escapeJson (utf8Bytes c) ++ rest).head? ≠ some 0x22 := by
  intro quoted
  -- A reader would take nothing off a text that starts with a quote.
  have read := readCharacter_escapeJson c rest
  cases text : escapeJson (utf8Bytes c) ++ rest with
  | nil =>
    rw [text] at quoted
    exact absurd quoted (by simp)
  | cons first letters =>
    rw [text] at quoted read
    rw [List.head?_cons, Option.some_inj] at quoted
    subst quoted
    exact absurd read (by simp [readCharacter])

/-- A string in UTF-8, escaped and put between quotes, is read as itself up to the closing quote. -/
theorem readTo_escapeJson (s : List Char) (rest : List Byte) :
    jsonCode.readTo 0x22 (s.length + 1) (escapeJson (s.flatMap utf8Bytes) ++ 0x22 :: rest) =
      some (s, rest) := by
  -- Escaping the whole string escapes its characters one by one.
  have text : escapeJson (s.flatMap utf8Bytes) = jsonCode.text s := List.flatMap_assoc
  rw [text]
  exact jsonCode.readTo_text escapeJson_head s rest (Nat.lt_succ_self _)

end SlippCrunch
