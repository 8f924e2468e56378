import Mathlib.Algebra.Group.Nat.Defs
import SlippCrunch.Slippc.Items

/-! An item id is a frame modulus, a number of skipped ids and a waiting time side by side. -/

namespace SlippCrunch

/-- An item id of its parts. -/
def idWord (frame skip : Byte) (wait : BitVec 16) : Word := frame ++ skip ++ wait

section Parts

variable (frame skip : Byte) (wait : BitVec 16)

/-- Every bit of an item id belongs to one of its parts. -/
theorem idWord_bit (bit : Nat) :
    (idWord frame skip wait).getLsbD bit = if bit < 16 then wait.getLsbD bit
      else if bit < 24 then skip.getLsbD (bit - 16) else frame.getLsbD (bit - 24) := by
  -- The parts stand behind each other, so each bit is read from the part that its number falls in.
  simp only [idWord, BitVec.getLsbD_append]
  grind

/-- Every word is an item id of its parts. -/
theorem eq_idWord (itemId : Word) : itemId =
    idWord (itemId.extractLsb' 24 8) (itemId.extractLsb' 16 8) (itemId.extractLsb' 0 16) := by
  -- Bit by bit, the parts hold the bits of the word.
  apply BitVec.eq_of_getLsbD_eq
  intro bit inside
  simp only [idWord_bit, BitVec.getLsbD_extractLsb']
  grind

/-- The number of an item id without a frame modulus. -/
theorem toNat_idWord : (idWord 0 skip wait).toNat = skip.toNat * 65536 + wait.toNat := by
  -- The parts lie behind each other, so their numbers add up in their places.
  rw [idWord, BitVec.toNat_append, BitVec.toNat_append, ← Nat.shiftLeft_add_eq_or_of_lt wait.isLt,
    ← Nat.shiftLeft_add_eq_or_of_lt skip.isLt, Nat.shiftLeft_eq]
  simp

/-- A waiting time takes the place of the one that was there. -/
theorem encodeWait_idWord (n : Nat) :
    encodeWaitIntoItemId (idWord frame skip wait) n = idWord frame skip (BitVec.ofNat 16 n) := by
  -- The mask keeps the two upper bytes, and the waiting time has none of their bits.
  have mask : ∀ bit < 32, (0xFFFF0000 : Word).getLsbD bit = decide (16 ≤ bit) := by decide
  rw [encodeWaitIntoItemId, Nat.add_mod_right]
  apply BitVec.eq_of_getLsbD_eq
  intro bit inside
  rw [BitVec.getLsbD_xor, BitVec.getLsbD_and, mask bit inside, idWord_bit, idWord_bit,
    BitVec.getLsbD_ofNat, BitVec.getLsbD_ofNat, show 65536 = 2 ^ 16 from rfl,
    Nat.testBit_mod_two_pow]
  grind

/-- The waiting time is read from its own place. -/
theorem getWait_idWord : getWaitFromItemId (idWord frame skip wait) = wait.toNat := by
  -- The other parts are multiples of what the remainder is taken by.
  rw [getWaitFromItemId, idWord, BitVec.toNat_append, ← Nat.shiftLeft_add_eq_or_of_lt wait.isLt,
    Nat.shiftLeft_eq]
  omega

/-- A small number of skipped ids is combined with the one that is there. -/
theorem encodeNewItem_idWord {n : Nat} (small : n < 256) :
    encodeNewItemIntoId (idWord frame skip wait) n =
      idWord frame (skip ^^^ BitVec.ofNat 8 n) wait := by
  -- A small number stays in its byte, so the frame modulus does not change.
  have none : ∀ bit ≥ 8, n.testBit bit = false :=
    fun _ high => testBit_high (show n < 2 ^ 8 from small) high
  rw [encodeNewItemIntoId]
  apply BitVec.eq_of_getLsbD_eq
  intro bit inside
  rw [BitVec.getLsbD_xor, idWord_bit, idWord_bit, BitVec.getLsbD_shiftLeft, BitVec.getLsbD_ofNat,
    BitVec.getLsbD_xor, BitVec.getLsbD_ofNat]
  grind

/-- The number of skipped ids is read from its own place. -/
theorem getIsNewItem_idWord : getIsNewItem (idWord frame skip wait) = skip.toNat := by
  -- The first shift takes the frame away, and the second one the waiting time.
  have same : idWord frame skip wait <<< 8 >>> 24 = skip.setWidth 32 := by
    apply BitVec.eq_of_getLsbD_eq
    intro bit inside
    rw [BitVec.getLsbD_ushiftRight, BitVec.getLsbD_shiftLeft, idWord_bit, BitVec.getLsbD_setWidth]
    grind
  rw [getIsNewItem, same, BitVec.toNat_setWidth, Nat.mod_eq_of_lt (by omega)]

/-- Combining a frame modulus with itself clears it. -/
theorem clearFrame_idWord :
    encodeFrameIntoItemId (idWord frame skip wait)
      (getFrameModFromItemId (idWord frame skip wait)).toInt = idWord 0 skip wait := by
  -- The modulus that is read is the upper byte, which is not negative as an integer.
  have first : getFrameModFromItemId (idWord frame skip wait) = frame.setWidth 32 := by
    apply BitVec.eq_of_getLsbD_eq
    intro bit inside
    rw [getFrameModFromItemId, BitVec.getLsbD_ushiftRight, idWord_bit, BitVec.getLsbD_setWidth]
    grind
  have small : (frame.setWidth 32).toNat < 256 := by
    rw [BitVec.toNat_setWidth]
    omega
  have isInt : (frame.setWidth 32 : Word).toInt = ((frame.setWidth 32).toNat : Int) :=
    BitVec.toInt_eq_toNat_of_lt (by omega)
  -- Adding 256 before the remainder is taken changes nothing here.
  have modulus : (((frame.setWidth 32).toNat : Int) + 256).tmod 256 = (frame.setWidth 32).toNat := by
    rw [Int.tmod_eq_emod_of_nonneg (by omega)]
    omega
  rw [first, encodeFrameIntoItemId, isInt, modulus, BitVec.ofInt_natCast, BitVec.ofNat_toNat,
    BitVec.setWidth_eq]
  apply BitVec.eq_of_getLsbD_eq
  intro bit inside
  rw [BitVec.getLsbD_xor, idWord_bit, idWord_bit, BitVec.getLsbD_shiftLeft, BitVec.getLsbD_setWidth]
  grind

end Parts

/-- The item that an id belongs to, without its frame modulus. -/
def itemUid (ouid : Word) : Nat :=
  (encodeFrameIntoItemId ouid (getFrameModFromItemId ouid).toInt).toNat

/-- The id of an item that is tracked is its number behind a frame modulus. -/
theorem eq_idWord_of_small {ouid : Word} (small : itemUid ouid < maxItemsC) :
    ouid = idWord (ouid.extractLsb' 24 8) 0 (BitVec.ofNat 16 (itemUid ouid)) := by
  have parts := eq_idWord ouid
  generalize ouid.extractLsb' 24 8 = frame at parts ⊢
  generalize ouid.extractLsb' 16 8 = skip at parts
  generalize ouid.extractLsb' 0 16 = wait at parts
  subst parts
  rw [itemUid, clearFrame_idWord, toNat_idWord] at small ⊢
  have few : maxItemsC = 2048 := rfl
  -- A small number has nothing in the second byte.
  have none : skip = 0 := by
    apply BitVec.eq_of_toNat_eq
    show skip.toNat = 0
    omega
  subst none
  have zero : (0 : Byte).toNat = 0 := rfl
  rw [zero, Nat.zero_mul, Nat.zero_add, BitVec.ofNat_toNat, BitVec.setWidth_eq]

end SlippCrunch
