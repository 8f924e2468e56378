import SlippCrunch.Basis.ByteMemory

/-! Big-endian fields of a replay, as the helpers of slippc read and write them, and its version tests. -/

namespace SlippCrunch

/-- The word a little-endian machine loads from an address. -/
def loadWord (array : Memory) (address : Nat) : Word :=
  array (address + 3) ++ array (address + 2) ++ array (address + 1) ++ array address

/-- The bytes of a word in the opposite order. -/
def swap32 (value : Word) : Word :=
  value.extractLsb' 0 8 ++ value.extractLsb' 8 8 ++ value.extractLsb' 16 8 ++ value.extractLsb' 24 8

/-- The half word a little-endian machine loads from an address. -/
def loadHalf (array : Memory) (address : Nat) : BitVec 16 := array (address + 1) ++ array address

/-- The bytes of a half word in the opposite order. -/
def swap16 (value : BitVec 16) : BitVec 16 := value.extractLsb' 0 8 ++ value.extractLsb' 8 8

/-- Load a big-endian 16-bit unsigned int. -/
def readBE2U (array : Memory) (address : Nat) : BitVec 16 := swap16 (loadHalf array address)

/-- Load a big-endian 32-bit unsigned int. -/
def readBE4U (array : Memory) (address : Nat) : Word := swap32 (loadWord array address)

/-- Load a big-endian 32-bit int. -/
def readBE4S (array : Memory) (address : Nat) : Word := swap32 (loadWord array address)

/-- Load the bits of a big-endian float. -/
def readBE4F (array : Memory) (address : Nat) : Word :=
  -- The bytes of the float are set one by one, in reversed order.
  let rc0 := array (address + 3)
  let rc1 := array (address + 2)
  let rc2 := array (address + 1)
  let rc3 := array address
  rc3 ++ rc2 ++ rc1 ++ rc0

/-- Write a big-endian 32-bit unsigned int. -/
def writeBE4U (value : Word) (array : Memory) (address : Nat) : Memory :=
  let array := Function.update array (address + 3) ((value &&& 0xff).setWidth 8)
  let array := Function.update array (address + 2) ((value >>> 8 &&& 0xff).setWidth 8)
  let array := Function.update array (address + 1) ((value >>> 16 &&& 0xff).setWidth 8)
  Function.update array address ((value >>> 24 &&& 0xff).setWidth 8)

/-- Write a big-endian 32-bit signed int. -/
def writeBE4S (value : Word) (array : Memory) (address : Nat) : Memory :=
  let array := Function.update array (address + 3) ((value &&& 0xff).setWidth 8)
  let array := Function.update array (address + 2) ((value.sshiftRight 8 &&& 0xff).setWidth 8)
  let array := Function.update array (address + 1) ((value.sshiftRight 16 &&& 0xff).setWidth 8)
  Function.update array address ((value.sshiftRight 24 &&& 0xff).setWidth 8)

/-- Write the bits of a big-endian float. -/
def writeBE4F (bits : Word) (array : Memory) (address : Nat) : Memory :=
  let array := Function.update array (address + 3) (bits.extractLsb' 0 8)
  let array := Function.update array (address + 2) (bits.extractLsb' 8 8)
  let array := Function.update array (address + 1) (bits.extractLsb' 16 8)
  Function.update array address (bits.extractLsb' 24 8)

/-- Loading and swapping the bytes reads the word that stands there. -/
@[simp] theorem readBE4U_eq (array : Memory) (address : Nat) :
    readBE4U array address = array.word address := by
  -- Each byte of the loaded word is compared with the byte it was loaded from.
  simp only [readBE4U, swap32, loadWord, Memory.word]
  apply BitVec.eq_of_getLsbD_eq
  intro bit inside
  simp only [BitVec.getLsbD_append, BitVec.getLsbD_extractLsb']
  grind

/-- Signed and unsigned ints are read alike. -/
@[simp] theorem readBE4S_eq (array : Memory) (address : Nat) :
    readBE4S array address = array.word address := readBE4U_eq array address

/-- The bits of a float are read like those of an int. -/
@[simp] theorem readBE4F_eq (array : Memory) (address : Nat) :
    readBE4F array address = array.word address := rfl

/-- Four updates from the last byte to the first store a word. -/
theorem update_bytes_eq_setWord {array : Memory} {address : Nat} {value : Word} {b0 b1 b2 b3 : Byte}
    (first : b0 = value.extractLsb' 24 8) (second : b1 = value.extractLsb' 16 8)
    (third : b2 = value.extractLsb' 8 8) (fourth : b3 = value.extractLsb' 0 8) :
    Function.update (Function.update (Function.update (Function.update array (address + 3) b3)
      (address + 2) b2) (address + 1) b1) address b0 = array.setWord address value := by
  subst first second third fourth
  funext position
  simp only [Memory.setWord, Function.update_apply]
  -- A position is one of the four, or lies outside of them.
  by_cases inside : address ≤ position ∧ position < address + 4
  · obtain ⟨offset, rfl⟩ := Nat.exists_eq_add_of_le inside.1
    rw [if_pos inside, Nat.add_sub_cancel_left]
    have small : offset < 4 := by omega
    rcases offset with _ | _ | _ | _ | offset
    · simp [Memory.wordByte]
    · simp [Memory.wordByte]
    · simp [Memory.wordByte]
    · simp [Memory.wordByte]
    · omega
  · rw [if_neg inside, if_neg (by omega), if_neg (by omega), if_neg (by omega), if_neg (by omega)]

/-- Masking a shifted word leaves one of its bytes. -/
theorem masked_byte (value : Word) (shift : Nat) :
    (value >>> shift &&& 0xff).setWidth 8 = value.extractLsb' shift 8 := by
  -- Bit by bit, the mask keeps the lower eight bits.
  apply BitVec.eq_of_getLsbD_eq
  intro bit inside
  have mask : (0xff#32).getLsbD bit = true := by
    have := inside
    rcases bit with _ | _ | _ | _ | _ | _ | _ | _ | bit <;> first | rfl | omega
  simp only [BitVec.getLsbD_and, BitVec.getLsbD_setWidth, BitVec.getLsbD_ushiftRight,
    BitVec.getLsbD_extractLsb', inside, decide_true, Bool.true_and]
  show (value.getLsbD (shift + bit) && (0xff#32).getLsbD bit) = value.getLsbD (shift + bit)
  rw [mask, Bool.and_true]

/-- Writing an unsigned int byte by byte stores it. -/
@[simp] theorem writeBE4U_eq (value : Word) (array : Memory) (address : Nat) :
    writeBE4U value array address = array.setWord address value := by
  -- Each of the four bytes is one byte of the word.
  apply update_bytes_eq_setWord
  · exact masked_byte value 24
  · exact masked_byte value 16
  · exact masked_byte value 8
  · exact masked_byte value 0

/-- The byte below an arithmetic shift does not show the sign. -/
theorem masked_byte_signed (value : Word) {shift : Nat} (small : shift ≤ 24) :
    (value.sshiftRight shift &&& 0xff).setWidth 8 = value.extractLsb' shift 8 := by
  -- The bits that an arithmetic shift fills in lie above the byte.
  rw [← masked_byte]
  apply BitVec.eq_of_getLsbD_eq
  intro bit inside
  simp only [BitVec.getLsbD_setWidth, BitVec.getLsbD_and, BitVec.getLsbD_sshiftRight,
    BitVec.getLsbD_ushiftRight]
  rw [if_pos (by omega)]
  have within : ¬ 32 ≤ bit := by omega
  simp [within]

/-- Writing a signed int byte by byte stores it. -/
@[simp] theorem writeBE4S_eq (value : Word) (array : Memory) (address : Nat) :
    writeBE4S value array address = array.setWord address value := by
  -- Each of the four bytes is one byte of the word.
  apply update_bytes_eq_setWord
  · exact masked_byte_signed value (by omega)
  · exact masked_byte_signed value (by omega)
  · exact masked_byte_signed value (by omega)
  · exact masked_byte value 0

/-- Writing the bits of a float byte by byte stores them. -/
@[simp] theorem writeBE4F_eq (bits : Word) (array : Memory) (address : Nat) :
    writeBE4F bits array address = array.setWord address bits :=
  update_bytes_eq_setWord rfl rfl rfl rfl

/-- The version of Slippi a replay was recorded with. -/
structure SlippiVersion where
  slippiMaj : Byte
  slippiMin : Byte
  slippiRev : Byte
  deriving DecidableEq, Repr

namespace SlippiVersion

variable (version : SlippiVersion)

/-- The replay is at least of the given version. -/
def minVersion (maj min rev : Nat) : Bool :=
  decide (version.slippiMaj.toNat > maj) || (decide (version.slippiMaj.toNat = maj) &&
    (decide (version.slippiMin.toNat > min) ||
      (decide (version.slippiMin.toNat = min) && decide (version.slippiRev.toNat ≥ rev))))

/-- The replay is older than the given version. -/
def maxVersion (maj min rev : Nat) : Bool :=
  decide (version.slippiMaj.toNat < maj) || (decide (version.slippiMaj.toNat = maj) &&
    (decide (version.slippiMin.toNat < min) ||
      (decide (version.slippiMin.toNat = min) && decide (version.slippiRev.toNat < rev))))

end SlippiVersion

end SlippCrunch
