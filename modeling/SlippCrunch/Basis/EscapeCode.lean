import Mathlib.Algebra.Group.Nat.Defs
import Mathlib.Data.List.Nodup
import Mathlib.Data.Fintype.Card

/-! Codes that mark a word as predicted or as seen before, by values a plain word is not expected to take. -/

namespace EscapeCode

section Prediction

variable {width : Nat} (magic maxDiff : BitVec width)

/-- A word that was predicted up to a small difference is replaced by that difference, marked. -/
def mark (predicted plain : BitVec width) : BitVec width :=
  if predicted ^^^ plain ≤ maxDiff then magic ^^^ (predicted ^^^ plain) else plain

/-- A marked difference is applied to the prediction, and every other word is kept. -/
def unmark (predicted coded : BitVec width) : BitVec width :=
  if coded ^^^ magic ≤ maxDiff then predicted ^^^ (coded ^^^ magic) else coded

/-- The word is predicted well enough, or it cannot be taken for a marked difference. -/
def Markable (predicted plain : BitVec width) : Prop :=
  predicted ^^^ plain ≤ maxDiff ∨ ¬ plain ^^^ magic ≤ maxDiff

instance (predicted plain : BitVec width) : Decidable (Markable magic maxDiff predicted plain) :=
  inferInstanceAs (Decidable (_ ∨ _))

variable {magic maxDiff} {predicted plain : BitVec width}

/-- Applying a difference twice cancels. -/
theorem xor_xor_cancel (first second : BitVec width) : first ^^^ (first ^^^ second) = second := by
  rw [← BitVec.xor_assoc, BitVec.xor_self, BitVec.zero_xor]

/-- A marked difference shows itself once the mark is taken off. -/
theorem xor_mark_cancel (first second : BitVec width) : (first ^^^ second) ^^^ first = second := by
  rw [BitVec.xor_comm, xor_xor_cancel]

/-- A word that was predicted well enough is restored from its difference. -/
theorem unmark_mark_of_close (close : predicted ^^^ plain ≤ maxDiff) :
    unmark magic maxDiff predicted (mark magic maxDiff predicted plain) = plain := by
  -- The mark shows, and beneath it is the difference to the prediction.
  simp only [mark, if_pos close, unmark, xor_mark_cancel, xor_xor_cancel]

/-- A word that is not marked is read through the mark test alone. -/
theorem unmark_mark_of_far (far : ¬ predicted ^^^ plain ≤ maxDiff) :
    unmark magic maxDiff predicted (mark magic maxDiff predicted plain) =
      if plain ^^^ magic ≤ maxDiff then predicted ^^^ (plain ^^^ magic) else plain := by
  simp only [mark, if_neg far, unmark]

/-- Exactly the markable words come back from their code. -/
theorem unmark_mark_iff :
    unmark magic maxDiff predicted (mark magic maxDiff predicted plain) = plain ↔
      Markable magic maxDiff predicted plain := by
  -- A word that is predicted closely always comes back, and others stay as they are.
  by_cases close : predicted ^^^ plain ≤ maxDiff
  · exact iff_of_true (unmark_mark_of_close close) (.inl close)
  rw [unmark_mark_of_far close]
  by_cases looksMarked : plain ^^^ magic ≤ maxDiff
  · -- Taking the plain word for a difference moves the prediction by that same difference.
    rw [if_pos looksMarked]
    constructor
    · intro restored
      exfalso
      apply close
      have difference : predicted ^^^ plain = plain ^^^ magic := by
        calc predicted ^^^ plain
            = predicted ^^^ (predicted ^^^ (plain ^^^ magic)) := by rw [restored]
          _ = plain ^^^ magic := xor_xor_cancel _ _
      rw [difference]
      exact looksMarked
    · rintro (isClose | unmarked)
      · exact absurd isClose close
      · exact absurd looksMarked unmarked
  · rw [if_neg looksMarked]
    exact iff_of_true rfl (.inr looksMarked)

end Prediction

section Dictionary

variable {width : Nat} (magic : BitVec width) (seen : List (BitVec width))

/-- A word seen before is replaced by its index, marked, and a new word is kept. -/
def tag (plain : BitVec width) : BitVec width :=
  if plain ∈ seen then BitVec.ofNat width (seen.idxOf plain) ||| magic else plain

/-- The words seen, with the given one among them. -/
def learn (plain : BitVec width) : List (BitVec width) :=
  if plain ∈ seen then seen else seen ++ [plain]

/-- A marked index is looked up, an unknown index standing for zero, and every other word is kept. -/
def untag (coded : BitVec width) : BitVec width :=
  if coded &&& magic = magic then seen[(coded &&& ~~~magic).toNat]?.getD 0 else coded

/-- The word is new and looks unmarked, or its index keeps clear of the mark. -/
def Taggable (plain : BitVec width) : Prop :=
  if plain ∈ seen then BitVec.ofNat width (seen.idxOf plain) &&& magic = 0
  else plain &&& magic ≠ magic

instance (plain : BitVec width) : Decidable (Taggable magic seen plain) := by
  unfold Taggable
  infer_instance

variable {magic seen} {plain : BitVec width}

/-- A marked index shows its mark. -/
theorem tagged_marked (index : BitVec width) : (index ||| magic) &&& magic = magic := by
  -- Bit by bit, a bit of the mark is kept by the mask and set by the mark.
  apply BitVec.eq_of_getLsbD_eq
  intro bit inside
  simp only [BitVec.getLsbD_and, BitVec.getLsbD_or]
  cases index.getLsbD bit <;> cases magic.getLsbD bit <;> rfl

/-- Without its mark a marked index has the bits the mark does not cover. -/
theorem tagged_index (index : BitVec width) : (index ||| magic) &&& ~~~magic = index &&& ~~~magic := by
  -- Bit by bit, the mark only sets bits that the mask takes away.
  apply BitVec.eq_of_getLsbD_eq
  intro bit inside
  simp only [BitVec.getLsbD_and, BitVec.getLsbD_or, BitVec.getLsbD_not, inside]
  cases index.getLsbD bit <;> cases magic.getLsbD bit <;> rfl

/-- An index is unchanged without the mark's bits exactly when it has none of them. -/
theorem and_not_eq_self_iff (index : BitVec width) :
    index &&& ~~~magic = index ↔ index &&& magic = 0 := by
  -- Both sides say of every bit that it is not in the index and in the mark at once.
  constructor
  · intro same
    rw [← same, BitVec.and_assoc]
    simp
  · intro apart
    apply BitVec.eq_of_getLsbD_eq
    intro bit inside
    have clear := congrArg (fun word => word.getLsbD bit) apart
    simp only [BitVec.getLsbD_and, BitVec.ofNat_eq_ofNat, BitVec.getLsbD_zero] at clear
    simp only [BitVec.getLsbD_and, BitVec.getLsbD_not, inside]
    cases ofIndex : index.getLsbD bit <;> cases ofMagic : magic.getLsbD bit <;>
      simp_all

/-- Distinct words of a given width are at most as many as there are words. -/
theorem length_le (distinct : seen.Nodup) : seen.length ≤ 2 ^ width := by
  -- Distinct words have distinct numbers, of which there are only that many.
  have numbered : (seen.map BitVec.toFin).Nodup :=
    distinct.map fun first second same => BitVec.eq_of_toFin_eq same
  simpa using numbered.length_le_card

/-- As long as a word is missing there is an index left for it. -/
theorem length_lt_of_not_mem (distinct : seen.Nodup) (new : plain ∉ seen) :
    seen.length < 2 ^ width := by
  -- Even together with the missing word there are not too many.
  have bounded := length_le (List.nodup_cons.mpr ⟨new, distinct⟩)
  simpa only [List.length_cons, Nat.lt_iff_add_one_le] using bounded

/-- The index of a seen word is not wrapped around by the width of a word. -/
theorem toNat_idxOf (distinct : seen.Nodup) (old : plain ∈ seen) :
    (BitVec.ofNat width (seen.idxOf plain)).toNat = seen.idxOf plain := by
  -- There are at most as many seen words as a word can count.
  have index := List.idxOf_lt_length_iff.mpr old
  have bounded := length_le distinct
  rw [BitVec.toNat_ofNat, Nat.mod_eq_of_lt (by omega)]

/-- A taggable word seen before is tagged with its own index. -/
theorem index_of_tag (distinct : seen.Nodup) (old : plain ∈ seen) (taggable : Taggable magic seen plain) :
    tag magic seen plain &&& magic = magic ∧
      (tag magic seen plain &&& ~~~magic).toNat = seen.idxOf plain := by
  -- The index shares no bit with the mark, so it is what remains without it.
  rw [Taggable, if_pos old] at taggable
  rw [tag, if_pos old, tagged_marked, tagged_index, (and_not_eq_self_iff _).mpr taggable]
  exact ⟨rfl, toNat_idxOf distinct old⟩

/-- A taggable word that is new is kept and does not look marked. -/
theorem tag_of_new (new : plain ∉ seen) (taggable : Taggable magic seen plain) :
    tag magic seen plain = plain ∧ plain &&& magic ≠ magic := by
  -- That it looks unmarked is what makes a new word taggable.
  rw [Taggable, if_neg new] at taggable
  exact ⟨if_neg new, taggable⟩

/-- Exactly the taggable words come back. -/
theorem untag_tag_iff (distinct : seen.Nodup) (nonzero : magic ≠ 0) :
    untag magic seen (tag magic seen plain) = plain ↔ Taggable magic seen plain := by
  by_cases old : plain ∈ seen
  · -- The mark is there, so the word comes back exactly if its whole index does.
    simp only [tag, if_pos old, untag, Taggable, tagged_marked, tagged_index, if_true]
    rw [← and_not_eq_self_iff]
    have index := List.idxOf_lt_length_iff.mpr old
    have whole := toNat_idxOf distinct old
    constructor
    · intro restored
      -- The index that was read is not beyond the one that was written.
      have below : (BitVec.ofNat width (seen.idxOf plain) &&& ~~~magic).toNat ≤ seen.idxOf plain := by
        rw [BitVec.toNat_and]
        exact Nat.and_le_left.trans whole.le
      have inside : (BitVec.ofNat width (seen.idxOf plain) &&& ~~~magic).toNat < seen.length := by
        omega
      rw [List.getElem?_eq_getElem inside, Option.getD_some] at restored
      have position := distinct.idxOf_getElem _ inside
      rw [restored] at position
      apply BitVec.eq_of_toNat_eq
      rw [whole]
      exact position.symm
    · intro same
      rw [same, whole, List.getElem?_eq_getElem index, Option.getD_some, List.getElem_idxOf index]
  · simp only [tag, if_neg old, untag, Taggable]
    by_cases looksMarked : plain &&& magic = magic
    · -- A marked word that is new is taken for an index, and what stands there is not that word.
      simp only [looksMarked, if_true, ne_eq, not_true_eq_false, iff_false]
      intro restored
      cases found : seen[(plain &&& ~~~magic).toNat]? with
      | none =>
        rw [found, Option.getD_none] at restored
        rw [← restored, BitVec.ofNat_eq_ofNat, BitVec.zero_and] at looksMarked
        exact nonzero looksMarked.symm
      | some word =>
        rw [found, Option.getD_some] at restored
        subst restored
        exact old (List.mem_of_getElem? found)
    · simp only [looksMarked, if_false, ne_eq, not_false_eq_true]

end Dictionary

end EscapeCode
