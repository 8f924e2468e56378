import Mathlib.Algebra.Group.Int.Defs
import SlippCrunch.Basis.ByteMemory
import SlippCrunch.Basis.Collector

/-! Base64, as slippc writes the raw game start block and as it reads such text back. -/

namespace SlippCrunch

/-- The characters of the code: capitals, small letters, digits, and two signs. -/
def base64Chars : List Byte :=
  (List.range 26).map (fun n => BitVec.ofNat 8 (0x41 + n)) ++
    (List.range 26).map (fun n => BitVec.ofNat 8 (0x61 + n)) ++
    (List.range 10).map (fun n => BitVec.ofNat 8 (0x30 + n)) ++ [0x2B, 0x2F]

/-- The character is a letter, a digit or one of the two signs. -/
def isBase64 (c : Byte) : Bool :=
  decide (0x41 ≤ c ∧ c ≤ 0x5A) || decide (0x61 ≤ c ∧ c ≤ 0x7A) || decide (0x30 ≤ c ∧ c ≤ 0x39) ||
    c == 0x2B || c == 0x2F

/-- The character of an index. -/
def base64Char (index : Byte) : Byte := base64Chars.getD index.toNat 0

/-- The index of a character, cut down to a byte. -/
def base64Find (c : Byte) : Byte :=
  -- The search answers the largest number when there is no such character.
  if c ∈ base64Chars then BitVec.ofNat 8 (base64Chars.idxOf c) else 0xFF

/-- The four indices that three bytes are cut into. -/
def charArray4 (charArray3 : Nat → Byte) : List Byte :=
  [(charArray3 0 &&& 0xfc) >>> 2,
    ((charArray3 0 &&& 0x03) <<< 4) + ((charArray3 1 &&& 0xf0) >>> 4),
    ((charArray3 1 &&& 0x0f) <<< 2) + ((charArray3 2 &&& 0xc0) >>> 6),
    charArray3 2 &&& 0x3f]

/-- The three bytes that four indices are put together to. -/
def charArray3 (charArray4 : Nat → Byte) : List Byte :=
  [(charArray4 0 <<< 2) + ((charArray4 1 &&& 0x30) >>> 4),
    ((charArray4 1 &&& 0xf) <<< 4) + ((charArray4 2 &&& 0x3c) >>> 2),
    ((charArray4 2 &&& 0x3) <<< 6) + charArray4 3]

/-- The encoder: three bytes are written as four characters, and fewer are padded. -/
def base64Encoder : Collector Byte Byte where
  size := 3
  emit array := (charArray4 array).map base64Char
  leave array := array
  finish i array :=
    -- The bytes that are missing count as zero, and padding stands for the characters they lack.
    let array := fun j => if i ≤ j then 0 else array j
    ((charArray4 array).take (i + 1)).map base64Char ++ List.replicate (3 - i) 0x3D

/-- The decoder: four characters are read as three bytes, and fewer as one byte less. -/
def base64Decoder : Collector Byte Byte where
  size := 4
  emit array := charArray3 fun i => base64Find (array i)
  -- The characters are replaced by their indices in the array itself.
  leave array := fun i => if i < 4 then base64Find (array i) else array i
  finish i array :=
    -- Only the characters read are looked up, whatever else the array holds.
    let array := fun j => if j < i then base64Find (array j) else array j
    (charArray3 array).take (i - 1)

/-- The characters before the first padding or foreign one. -/
def base64Taken (chars : List Byte) : List Byte := chars.takeWhile fun c => c != 0x3D && isBase64 c

/-- Encode bytes, collected in an array that is not initialised. -/
def base64Encode (uninitialised : Nat → Byte) (bytesToEncode : List Byte) : List Byte :=
  base64Encoder.run uninitialised bytesToEncode

/-- Decode characters up to the first padding or foreign one. -/
def base64DecodeChars (uninitialised : Nat → Byte) (chars : List Byte) : List Byte :=
  base64Decoder.run uninitialised (base64Taken chars)

/-- Decode text, absent where the count of its characters leaves its range. -/
def base64Decode (uninitialised : Nat → Byte) (encodedString : List Byte) : Option (List Byte) :=
  -- The length is kept in a signed number of 32 bits, and counted down with each character.
  let inLen := (BitVec.ofNat 32 encodedString.length).toInt
  -- Below zero it is counted down as well, as far as the lowest number.
  let turns := (if 0 ≤ inLen then inLen else inLen + 2 ^ 31).toNat
  let read := encodedString.take turns
  if inLen < 0 ∧ (base64Taken read).length = turns then none
  else some (base64DecodeChars uninitialised read)

section Digits

/-- The character of an index is one of the code, and it is found again. -/
theorem base64Char_index :
    ∀ index : Byte, index < 64 →
      isBase64 (base64Char index) = true ∧ base64Find (base64Char index) = index := by
  -- There are only that many bytes to try.
  decide +kernel

/-- A character of the code has an index, and it is the character of that index. -/
theorem base64Find_char :
    ∀ c : Byte, isBase64 c = true → base64Find c < 64 ∧ base64Char (base64Find c) = c := by
  -- There are only that many bytes to try.
  decide +kernel

/-- Six bits of one byte, or of the end of one byte and the start of the next. -/
theorem toNat_cut :
    ∀ x : Byte, ((x &&& 0xfc) >>> 2).toNat = x.toNat / 4 ∧
      ((x &&& 0x03) <<< 4).toNat = x.toNat % 4 * 16 ∧
      ((x &&& 0xf0) >>> 4).toNat = x.toNat / 16 ∧ ((x &&& 0x0f) <<< 2).toNat = x.toNat % 16 * 4 ∧
      ((x &&& 0xc0) >>> 6).toNat = x.toNat / 64 ∧ (x &&& 0x3f).toNat = x.toNat % 64 := by
  -- There are only that many bytes to try.
  decide +kernel

/-- Eight bits from the indices that hold them. -/
theorem toNat_join :
    ∀ x : Byte, (x <<< 2).toNat = x.toNat % 64 * 4 ∧ ((x &&& 0x30) >>> 4).toNat = x.toNat / 16 % 4 ∧
      ((x &&& 0xf) <<< 4).toNat = x.toNat % 16 * 16 ∧ ((x &&& 0x3c) >>> 2).toNat = x.toNat / 4 % 16 ∧
      ((x &&& 0x3) <<< 6).toNat = x.toNat % 4 * 64 := by
  -- There are only that many bytes to try.
  decide +kernel

/-- The indices of three bytes, as numbers. -/
theorem toNat_charArray4 (bytes : Nat → Byte) :
    (charArray4 bytes).map BitVec.toNat =
      [(bytes 0).toNat / 4, (bytes 0).toNat % 4 * 16 + (bytes 1).toNat / 16,
        (bytes 1).toNat % 16 * 4 + (bytes 2).toNat / 64, (bytes 2).toNat % 64] := by
  have first := (bytes 0).isLt
  have second := (bytes 1).isLt
  have third := (bytes 2).isLt
  simp only [charArray4, List.map_cons, List.map_nil, BitVec.toNat_add, toNat_cut]
  -- The two parts of an index share no bits, so their sum does not overflow.
  congr 1
  congr 1
  · omega
  · congr 1
    omega

/-- The bytes of four indices, as numbers. -/
theorem toNat_charArray3 (indices : Nat → Byte) :
    (charArray3 indices).map BitVec.toNat =
      [(indices 0).toNat % 64 * 4 + (indices 1).toNat / 16 % 4,
        (indices 1).toNat % 16 * 16 + (indices 2).toNat / 4 % 16,
        ((indices 2).toNat % 4 * 64 + (indices 3).toNat) % 256] := by
  -- Each byte joins what two of the indices give it.
  simp only [charArray3, List.map_cons, List.map_nil, BitVec.toNat_add, toNat_join]
  congr 1
  · omega
  · congr 1
    omega

/-- Lists of bytes with the same numbers are the same. -/
theorem bytes_ext {first second : List Byte}
    (same : first.map BitVec.toNat = second.map BitVec.toNat) : first = second :=
  List.map_injective_iff.mpr (fun _ _ => BitVec.eq_of_toNat_eq) same

/-- Three bytes are put together again from their indices. -/
theorem charArray3_charArray4 {bytes indices : Nat → Byte}
    (cut : charArray4 bytes = [indices 0, indices 1, indices 2, indices 3]) :
    charArray3 indices = [bytes 0, bytes 1, bytes 2] := by
  have numbers := toNat_charArray4 bytes
  rw [cut] at numbers
  simp only [List.map_cons, List.map_nil, List.cons.injEq, and_true] at numbers
  have first := (bytes 0).isLt
  have second := (bytes 1).isLt
  have third := (bytes 2).isLt
  -- As numbers the indices are quotients and remainders, from which the bytes follow.
  apply bytes_ext
  rw [toNat_charArray3]
  simp only [List.map_cons, List.map_nil, List.cons.injEq, and_true]
  omega

/-- Four indices are cut again from their bytes. -/
theorem charArray4_charArray3 (bytes : Nat → Byte) {indices : Nat → Byte}
    (small : ∀ i < 4, (indices i).toNat < 64)
    (joined : charArray3 indices = [bytes 0, bytes 1, bytes 2]) :
    charArray4 bytes = [indices 0, indices 1, indices 2, indices 3] := by
  have numbers := toNat_charArray3 indices
  rw [joined] at numbers
  simp only [List.map_cons, List.map_nil, List.cons.injEq, and_true] at numbers
  have first := small 0 (by decide)
  have second := small 1 (by decide)
  have third := small 2 (by decide)
  have fourth := small 3 (by decide)
  -- Small indices lose nothing when they are shifted into the bytes.
  apply bytes_ext
  rw [toNat_charArray4]
  simp only [List.map_cons, List.map_nil, List.cons.injEq, and_true]
  omega

end Digits

section Loops

/-- A few bytes, and zeros behind them. -/
def bytesOf (bytes : List Byte) : Nat → Byte := fun i => bytes.getD i 0

/-- The encoder writes what it has collected, padded with zeros. -/
theorem base64Encoder_local : base64Encoder.Local where
  positive := by decide
  emit_congr := by
    intro first second same
    simp only [base64Encoder, charArray4, same 0 (by decide), same 1 (by decide), same 2 (by decide)]
  finish_congr := by
    intro count first second few same
    -- What stands behind the bytes collected is overwritten with zeros before it is used.
    have masked : (fun j => if count ≤ j then 0 else first j) =
        fun j => if count ≤ j then 0 else second j := by
      funext j
      split
      · rfl
      · exact same j (by omega)
    simp only [base64Encoder, masked]

/-- The decoder writes only bytes whose indices it has collected. -/
theorem base64Decoder_local : base64Decoder.Local where
  positive := by decide
  emit_congr := by
    intro first second same
    simp only [base64Decoder, charArray3, same 0 (by decide), same 1 (by decide), same 2 (by decide),
      same 3 (by decide)]
  finish_congr := by
    intro count first second few same
    -- With two or three characters collected, only the first one or two bytes are complete.
    have four : count < 4 := few
    rcases count with _ | _ | _ | _ | count
    · rfl
    · rfl
    · simp [base64Decoder, charArray3, same 0, same 1]
    · simp [base64Decoder, charArray3, same 0, same 1, same 2]
    · omega

variable (uninitialised : Nat → Byte)

/-- Three bytes are written as the characters of their indices. -/
theorem base64Encode_block (a b c : Byte) (rest : List Byte) :
    base64Encode uninitialised (a :: b :: c :: rest) =
      (charArray4 (bytesOf [a, b, c])).map base64Char ++ base64Encode uninitialised rest :=
  base64Encoder_local.run_block [a, b, c] rfl (Collector.holds_getD _ 0) rest
    uninitialised uninitialised

/-- The last one or two bytes are written as two or three characters and padding. -/
theorem base64Encode_few {bytes : List Byte} (some : bytes ≠ []) (few : bytes.length < 3) :
    base64Encode uninitialised bytes =
      ((charArray4 (bytesOf bytes)).take (bytes.length + 1)).map base64Char ++
        List.replicate (3 - bytes.length) 0x3D := by
  -- The bytes asked for are zeros behind the list, as the padding is.
  have padded : (fun j => if bytes.length ≤ j then 0 else bytesOf bytes j) = bytesOf bytes := by
    funext j
    split
    · rename_i behind
      simp [bytesOf, behind]
    · rfl
  have run := base64Encoder_local.run_few few some (Collector.holds_getD bytes 0) uninitialised
  rw [base64Encode, run]
  show ((charArray4 fun j => if bytes.length ≤ j then 0 else bytesOf bytes j).take _).map _ ++ _ = _
  rw [padded]

/-- A character of the code is no padding, so the decoder goes on with it. -/
theorem goes_on : ∀ c : Byte, isBase64 c = true → (c != 0x3D && isBase64 c) = true := by
  decide +kernel

/-- Four characters are read as the bytes of their indices. -/
theorem base64DecodeChars_block {w x y z : Byte} (proper : ∀ c ∈ [w, x, y, z], isBase64 c = true)
    (rest : List Byte) :
    base64DecodeChars uninitialised (w :: x :: y :: z :: rest) =
      charArray3 (fun i => base64Find (bytesOf [w, x, y, z] i)) ++
        base64DecodeChars uninitialised rest := by
  -- The four characters are all taken before the decoder meets padding.
  have kept : base64Taken ([w, x, y, z] ++ rest) = [w, x, y, z] ++ base64Taken rest :=
    List.takeWhile_append_of_pos fun c member => goes_on c (proper c member)
  show base64DecodeChars uninitialised ([w, x, y, z] ++ rest) = _
  rw [base64DecodeChars, kept]
  exact base64Decoder_local.run_block [w, x, y, z] rfl (Collector.holds_getD _ 0) _
    uninitialised uninitialised

/-- Fewer than four characters before the padding are read as one byte less. -/
theorem base64DecodeChars_few {chars : List Byte} (some : chars ≠ []) (few : chars.length < 4)
    (proper : ∀ c ∈ chars, isBase64 c = true) (rest : List Byte) :
    base64DecodeChars uninitialised (chars ++ 0x3D :: rest) =
      (charArray3 fun j => if j < chars.length then base64Find (bytesOf chars j) else 0).take
        (chars.length - 1) := by
  -- The padding ends what is taken.
  have kept : base64Taken (chars ++ 0x3D :: rest) = chars := by
    rw [base64Taken, List.takeWhile_append_of_pos fun c member => goes_on c (proper c member)]
    simp
  have run := base64Decoder_local.run_few few some (Collector.holds_getD chars 0) uninitialised
  rw [base64DecodeChars, kept, run]
  -- Behind the characters the indices are zero, whatever they would stand for.
  have zeros :
      (fun j => if j < chars.length then base64Find (bytesOf chars j) else bytesOf chars j) =
        fun j => if j < chars.length then base64Find (bytesOf chars j) else 0 := by
    funext j
    split
    · rfl
    · rename_i behind
      simp [bytesOf, Nat.le_of_not_lt behind]
  rw [← zeros]
  rfl

/-- The indices that bytes are cut into are small. -/
theorem charArray4_lt (bytes : Nat → Byte) : ∀ index ∈ charArray4 bytes, index < 64 := by
  intro index member
  have among : index.toNat ∈ (charArray4 bytes).map BitVec.toNat := List.mem_map_of_mem member
  have first := (bytes 0).isLt
  have second := (bytes 1).isLt
  have third := (bytes 2).isLt
  -- Each of the four numbers is a quotient or a remainder below 64.
  rw [toNat_charArray4] at among
  simp only [List.mem_cons, List.not_mem_nil, or_false] at among
  show index.toNat < 64
  omega

/-- The indices that bytes are cut into. -/
def indicesOf (bytes : Nat → Byte) : Nat → Byte := fun i => (charArray4 bytes).getD i 0

/-- There are four indices. -/
theorem charArray4_eq (bytes : Nat → Byte) :
    charArray4 bytes =
      [indicesOf bytes 0, indicesOf bytes 1, indicesOf bytes 2, indicesOf bytes 3] :=
  rfl

/-- The character written for an index is one of the code, and it stands for the index. -/
theorem written (bytes : Nat → Byte) (i : Nat) :
    isBase64 (base64Char (indicesOf bytes i)) = true ∧
      base64Find (base64Char (indicesOf bytes i)) = indicesOf bytes i := by
  apply base64Char_index
  -- There are four indices, and zero stands for those that are not there.
  by_cases inside : i < (charArray4 bytes).length
  · rw [indicesOf, List.getD_eq_getElem?_getD, List.getElem?_eq_getElem inside, Option.getD_some]
    exact charArray4_lt bytes _ (List.getElem_mem inside)
  · rw [indicesOf, List.getD_eq_getElem?_getD, List.getElem?_eq_none (by omega), Option.getD_none]
    decide

/-- Where the second and the third byte are zero, so is the third index. -/
theorem third_index_zero {bytes : Nat → Byte} (second : bytes 1 = 0) (third : bytes 2 = 0) :
    indicesOf bytes 2 = 0 := by
  -- The index is made of four bits of the one and two of the other.
  show ((bytes 1 &&& 0x0f) <<< 2) + ((bytes 2 &&& 0xc0) >>> 6) = 0
  rw [second, third]
  rfl

/-- Where the third byte is zero, so is the fourth index. -/
theorem fourth_index_zero {bytes : Nat → Byte} (third : bytes 2 = 0) : indicesOf bytes 3 = 0 := by
  -- The index is made of the last six bits.
  show bytes 2 &&& 0x3f = 0
  rw [third]
  rfl

/-- Bytes are put together again from indices that agree with theirs. -/
theorem charArray3_of_indices (bytes : Nat → Byte) {indices : Nat → Byte}
    (first : indices 0 = indicesOf bytes 0) (second : indices 1 = indicesOf bytes 1)
    (third : indices 2 = indicesOf bytes 2) (fourth : indices 3 = indicesOf bytes 3) :
    charArray3 indices = [bytes 0, bytes 1, bytes 2] := by
  -- The bytes come back from their own indices, which these are.
  apply charArray3_charArray4
  rw [charArray4_eq, first, second, third, fourth]

/-- One byte is written as two characters. -/
theorem base64Encode_one (a : Byte) :
    base64Encode uninitialised [a] =
      [base64Char (indicesOf (bytesOf [a]) 0), base64Char (indicesOf (bytesOf [a]) 1)] ++
        0x3D :: [0x3D] :=
  base64Encode_few uninitialised (List.cons_ne_nil _ _) (Nat.lt_of_sub_eq_succ rfl)

/-- Two bytes are written as three characters. -/
theorem base64Encode_two (a b : Byte) :
    base64Encode uninitialised [a, b] =
      [base64Char (indicesOf (bytesOf [a, b]) 0), base64Char (indicesOf (bytesOf [a, b]) 1),
        base64Char (indicesOf (bytesOf [a, b]) 2)] ++ 0x3D :: [] :=
  base64Encode_few uninitialised (List.cons_ne_nil _ _) (Nat.lt_of_sub_eq_succ rfl)

/-- Two characters before the padding are read as one byte. -/
theorem base64DecodeChars_two {w x : Byte} (proper : ∀ c ∈ [w, x], isBase64 c = true) (rest : List Byte) :
    base64DecodeChars uninitialised ([w, x] ++ 0x3D :: rest) =
      (charArray3 (bytesOf [base64Find w, base64Find x])).take 1 := by
  -- The padding ends the loop with two of four places filled.
  rw [base64DecodeChars_few _ (List.cons_ne_nil _ _) (Nat.lt_of_sub_eq_succ rfl) proper]
  simp [charArray3, bytesOf]

/-- Three characters before the padding are read as two bytes. -/
theorem base64DecodeChars_three {w x y : Byte} (proper : ∀ c ∈ [w, x, y], isBase64 c = true)
    (rest : List Byte) :
    base64DecodeChars uninitialised ([w, x, y] ++ 0x3D :: rest) =
      (charArray3 (bytesOf [base64Find w, base64Find x, base64Find y])).take 2 := by
  -- The padding ends the loop with three of four places filled.
  rw [base64DecodeChars_few _ (List.cons_ne_nil _ _) (Nat.lt_of_sub_eq_succ rfl) proper]
  simp [charArray3, bytesOf]

/-- Bytes that were encoded are decoded to themselves, whatever the arrays held at first. -/
theorem base64DecodeChars_base64Encode (uninitialised other : Nat → Byte) :
    ∀ bytes : List Byte, base64DecodeChars other (base64Encode uninitialised bytes) = bytes
  | [] => by
    rw [base64Encode, Collector.run_nil, base64DecodeChars, base64Taken, List.takeWhile_nil, Collector.run_nil]
  | [a] => by
    -- The indices of the two characters that are not written are zero.
    have joined : charArray3 (bytesOf [indicesOf (bytesOf [a]) 0, indicesOf (bytesOf [a]) 1]) = _ :=
      charArray3_of_indices (bytesOf [a]) rfl rfl (third_index_zero rfl rfl).symm
        (fourth_index_zero rfl).symm
    rw [base64Encode_one, base64DecodeChars_two other (by simp [written]), (written _ 0).2,
      (written _ 1).2, joined]
    rfl
  | [a, b] => by
    -- The index of the character that is not written is zero.
    have joined : charArray3 (bytesOf [indicesOf (bytesOf [a, b]) 0, indicesOf (bytesOf [a, b]) 1,
        indicesOf (bytesOf [a, b]) 2]) = _ :=
      charArray3_of_indices (bytesOf [a, b]) rfl rfl rfl (fourth_index_zero rfl).symm
    rw [base64Encode_two, base64DecodeChars_three other (by simp [written]), (written _ 0).2,
      (written _ 1).2, (written _ 2).2, joined]
    rfl
  | a :: b :: c :: rest => by
    -- Three bytes are written as four characters, and the rest follows.
    rw [base64Encode_block, charArray4_eq]
    show base64DecodeChars other (_ :: _ :: _ :: _ :: base64Encode uninitialised rest) = _
    rw [base64DecodeChars_block other (by simp [written]),
      base64DecodeChars_base64Encode uninitialised other rest,
      charArray3_of_indices (bytesOf [a, b, c]) (written _ 0).2 (written _ 1).2 (written _ 2).2
        (written _ 3).2]
    rfl

end Loops

/--
Text that the encoder could have written.

Padding makes up for one or two missing bytes, and the bits that they would have had are zero.
-/
inductive CanonicalBase64 : List Byte → Prop where
  | nil : CanonicalBase64 []
  | block {w x y z : Byte} {rest : List Byte} (proper : ∀ c ∈ [w, x, y, z], isBase64 c = true)
      (behind : CanonicalBase64 rest) : CanonicalBase64 (w :: x :: y :: z :: rest)
  | three {w x y : Byte} (proper : ∀ c ∈ [w, x, y], isBase64 c = true)
      (unused : base64Find y &&& 0x3 = 0) : CanonicalBase64 [w, x, y, 0x3D]
  | two {w x : Byte} (proper : ∀ c ∈ [w, x], isBase64 c = true)
      (unused : base64Find x &&& 0xf = 0) : CanonicalBase64 [w, x, 0x3D, 0x3D]

/-- The encoder writes canonical text. -/
theorem canonical_base64Encode (uninitialised : Nat → Byte) :
    ∀ bytes : List Byte, CanonicalBase64 (base64Encode uninitialised bytes)
  | [] => by
    rw [base64Encode, Collector.run_nil]
    exact .nil
  | [a] => by
    -- The lower bits of the second index would be those of a second byte.
    have unused : ∀ a : Byte, ((a &&& 0x03) <<< 4) + ((0#8 &&& 0xf0) >>> 4) &&& 0xf = 0 := by
      decide +kernel
    rw [base64Encode_one]
    refine .two (by simp [written]) ?_
    rw [(written _ 1).2]
    exact unused a
  | [a, b] => by
    -- The lower bits of the third index would be those of a third byte.
    have unused : ∀ b : Byte, ((b &&& 0x0f) <<< 2) + ((0#8 &&& 0xc0) >>> 6) &&& 0x3 = 0 := by
      decide +kernel
    rw [base64Encode_two]
    refine .three (by simp [written]) ?_
    rw [(written _ 2).2]
    exact unused b
  | a :: b :: c :: rest => by
    rw [base64Encode_block, charArray4_eq]
    exact .block (by simp [written]) (canonical_base64Encode uninitialised rest)

/-- A character of the code has a small index. -/
theorem small_indices {chars : List Byte} (proper : ∀ c ∈ chars, isBase64 c = true) (i : Nat) :
    (bytesOf (chars.map base64Find) i).toNat < 64 := by
  -- Behind the characters the index is zero.
  by_cases inside : i < (chars.map base64Find).length
  · rw [bytesOf, List.getD_eq_getElem?_getD, List.getElem?_eq_getElem inside, Option.getD_some]
    obtain ⟨c, member, found⟩ := List.mem_map.mp (List.getElem_mem inside)
    rw [← found]
    exact (base64Find_char c (proper c member)).1
  · rw [bytesOf, List.getD_eq_getElem?_getD, List.getElem?_eq_none (by omega), Option.getD_none]
    decide

/-- Canonical text is encoded again as it was. -/
theorem base64Encode_base64DecodeChars (uninitialised other : Nat → Byte) {text : List Byte}
    (canonical : CanonicalBase64 text) :
    base64Encode uninitialised (base64DecodeChars other text) = text := by
  induction canonical with
  | nil => rw [base64DecodeChars, base64Taken, List.takeWhile_nil, Collector.run_nil, base64Encode, Collector.run_nil]
  | @block w x y z rest proper behind ih =>
    have again : ∀ c ∈ [w, x, y, z], base64Char (base64Find c) = c :=
      fun c member => (base64Find_char c (proper c member)).2
    obtain ⟨a, b, c, joined⟩ : ∃ a b c,
        charArray3 (bytesOf ([w, x, y, z].map base64Find)) = [a, b, c] := ⟨_, _, _, rfl⟩
    have cut := charArray4_charArray3 (bytesOf [a, b, c]) (fun i _ => small_indices proper i) joined
    rw [base64DecodeChars_block other proper]
    show base64Encode uninitialised
      (charArray3 (bytesOf ([w, x, y, z].map base64Find)) ++ base64DecodeChars other rest) = _
    rw [joined]
    show base64Encode uninitialised (a :: b :: c :: base64DecodeChars other rest) = _
    rw [base64Encode_block, cut, ih]
    show base64Char (base64Find w) :: base64Char (base64Find x) :: base64Char (base64Find y) ::
      base64Char (base64Find z) :: rest = _
    rw [again w (by simp), again x (by simp), again y (by simp), again z (by simp)]
  | @three w x y proper unused =>
    -- The third byte, which is not read, would be zero.
    have again : ∀ c ∈ [w, x, y], base64Char (base64Find c) = c :=
      fun c member => (base64Find_char c (proper c member)).2
    have none : ((base64Find y &&& 0x3) <<< 6) + 0 = 0 := by
      rw [unused]
      rfl
    obtain ⟨a, b, joined⟩ : ∃ a b,
        charArray3 (bytesOf ([w, x, y].map base64Find)) = [a, b, 0] :=
      ⟨_, _, congrArg (fun third => [_, _, third]) none⟩
    have cut := charArray4_charArray3 (bytesOf [a, b]) (fun i _ => small_indices proper i) joined
    rw [charArray4_eq] at cut
    simp only [List.cons.injEq] at cut
    obtain ⟨first, second, third, -⟩ := cut
    show base64Encode uninitialised (base64DecodeChars other ([w, x, y] ++ 0x3D :: [])) = _
    rw [base64DecodeChars_three other proper]
    show base64Encode uninitialised
      ((charArray3 (bytesOf ([w, x, y].map base64Find))).take 2) = _
    rw [joined]
    show base64Encode uninitialised [a, b] = _
    rw [base64Encode_two, first, second, third]
    show [base64Char (base64Find w), base64Char (base64Find x), base64Char (base64Find y), 0x3D] = _
    rw [again w (by simp), again x (by simp), again y (by simp)]
  | @two w x proper unused =>
    -- The second and the third byte, which are not read, would be zero.
    have again : ∀ c ∈ [w, x], base64Char (base64Find c) = c :=
      fun c member => (base64Find_char c (proper c member)).2
    have none : ((base64Find x &&& 0xf) <<< 4) + ((0#8 &&& 0x3c) >>> 2) = 0 := by
      rw [unused]
      rfl
    have zero : ((0#8 &&& 0x3) <<< 6) + 0#8 = 0 := rfl
    obtain ⟨a, joined⟩ : ∃ a, charArray3 (bytesOf ([w, x].map base64Find)) = [a, 0, 0] := by
      refine ⟨(base64Find w <<< 2) + ((base64Find x &&& 0x30) >>> 4), ?_⟩
      show [_, ((base64Find x &&& 0xf) <<< 4) + ((0#8 &&& 0x3c) >>> 2),
        ((0#8 &&& 0x3) <<< 6) + 0#8] = _
      rw [none, zero]
      rfl
    have cut := charArray4_charArray3 (bytesOf [a]) (fun i _ => small_indices proper i) joined
    rw [charArray4_eq] at cut
    simp only [List.cons.injEq] at cut
    obtain ⟨first, second, -⟩ := cut
    show base64Encode uninitialised (base64DecodeChars other ([w, x] ++ 0x3D :: [0x3D])) = _
    rw [base64DecodeChars_two other proper]
    show base64Encode uninitialised ((charArray3 (bytesOf ([w, x].map base64Find))).take 1) = _
    rw [joined]
    show base64Encode uninitialised [a] = _
    rw [base64Encode_one, first, second]
    show [base64Char (base64Find w), base64Char (base64Find x), 0x3D, 0x3D] = _
    rw [again w (by simp), again x (by simp)]

section Lengths

variable (uninitialised : Nat → Byte)

/-- Three bytes, and the last ones, are written as four characters. -/
theorem length_base64Encode (bytes : List Byte) :
    (base64Encode uninitialised bytes).length = 4 * ((bytes.length + 2) / 3) := by
  -- Every full array adds four characters, and the last one is padded to four.
  apply base64Encoder_local.length_run fun count => 4 * ((count + 2) / 3)
  · rfl
  · intro contents count
    show 4 + 4 * ((count + 2) / 3) = 4 * ((3 + count + 2) / 3)
    omega
  · intro contents count some few
    have three : count < 3 := few
    simp only [base64Encoder, charArray4, List.length_append, List.length_map, List.length_take,
      List.length_cons, List.length_nil, List.length_replicate]
    omega

/-- Four characters are read as three bytes, and fewer as one byte less. -/
theorem length_base64DecodeChars (chars : List Byte) :
    (base64DecodeChars uninitialised chars).length = 3 * (base64Taken chars).length / 4 := by
  -- Every full array adds three bytes, and the last one a byte less than it holds.
  apply base64Decoder_local.length_run fun count => 3 * count / 4
  · rfl
  · intro contents count
    show 3 + 3 * count / 4 = 3 * (4 + count) / 4
    omega
  · intro contents count some few
    have four : count < 4 := few
    simp only [base64Decoder, charArray3, List.length_take, List.length_cons, List.length_nil]
    omega

/-- A text whose length fits is decoded as a whole. -/
theorem base64Decode_eq {text : List Byte} (short : text.length < 2 ^ 31) :
    base64Decode uninitialised text = some (base64DecodeChars uninitialised text) := by
  -- A length that fits is kept as it is, so no turn is left out.
  have kept : (BitVec.ofNat 32 text.length).toInt = text.length := by
    have number : (BitVec.ofNat 32 text.length).toNat = text.length := by
      rw [BitVec.toNat_ofNat, Nat.mod_eq_of_lt (by omega)]
    rw [BitVec.toInt_eq_toNat_of_lt (by omega), number]
  have whole : text.take text.length = text := List.take_length
  simp only [base64Decode, kept, Int.natCast_nonneg, if_true, Int.toNat_natCast, whole]
  rw [if_neg fun both => absurd both.1 (by omega)]

/-- Only so many characters are read that the bytes of longer texts do not make them up again. -/
theorem base64Decode_short {text bytes : List Byte}
    (decoded : base64Decode uninitialised text = some bytes)
    (made : text.length = 4 * ((bytes.length + 2) / 3)) : text.length < 2 ^ 31 := by
  by_contra long
  have inLen := BitVec.toInt_eq_toNat_cond (BitVec.ofNat 32 text.length)
  rw [BitVec.toNat_ofNat] at inLen
  simp only [base64Decode] at decoded
  generalize (BitVec.ofNat 32 text.length).toInt = counted at inLen decoded
  generalize isTurns : (if 0 ≤ counted then counted else counted + 2 ^ 31).toNat = turns at decoded
  -- No more characters are taken than there are turns, which a number of 32 bits counts.
  have few : (base64Taken (text.take turns)).length ≤ turns :=
    Nat.le_trans (List.takeWhile_sublist _).length_le (List.length_take_le ..)
  split at decoded
  · cases decoded
  · rename_i ends
    rw [Option.some.injEq] at decoded
    have size := length_base64DecodeChars uninitialised (text.take turns)
    rw [decoded] at size
    -- Of the least length that does not fit, nothing is read at all.
    split at isTurns <;> split at inLen <;> omega

end Lengths

/-- Bytes come back exactly if there are not too many, whatever the arrays held at first. -/
theorem base64Decode_base64Encode_iff (uninitialised other : Nat → Byte) (bytes : List Byte) :
    base64Decode other (base64Encode uninitialised bytes) = some bytes ↔
      bytes.length ≤ 3 * (2 ^ 29 - 1) := by
  -- The text is four thirds as long as the bytes, and has to fit.
  have length := length_base64Encode uninitialised bytes
  constructor
  · intro decoded
    have short := base64Decode_short other decoded length
    omega
  · intro few
    rw [base64Decode_eq other (by omega), base64DecodeChars_base64Encode]

/-- Decoding and encoding again changes a text unless the encoder would have written it, in one piece. -/
theorem base64Encode_base64Decode_iff (uninitialised other : Nat → Byte) (text : List Byte) :
    (base64Decode other text).map (base64Encode uninitialised) = some text ↔
      CanonicalBase64 text ∧ text.length < 2 ^ 31 := by
  -- What is encoded again is canonical, and text that comes back must have been read whole.
  constructor
  · intro again
    obtain ⟨bytes, decoded, same⟩ := Option.map_eq_some_iff.mp again
    rw [← same]
    refine ⟨canonical_base64Encode uninitialised bytes, ?_⟩
    rw [same]
    exact base64Decode_short other decoded (same ▸ length_base64Encode uninitialised bytes)
  · rintro ⟨canonical, short⟩
    rw [base64Decode_eq other short, Option.map_some, base64Encode_base64DecodeChars _ _ canonical]

end SlippCrunch
