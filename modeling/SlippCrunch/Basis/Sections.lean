import Mathlib.Data.Option.Basic
import Mathlib.Order.Basic

/-! Memories rewritten section by section, each section being found again by its first cell. -/

namespace Sections

variable {Cell : Type*}

/-- A memory, and the position that a pass over it has come to. -/
structure Place (Cell : Type*) where
  memory : Nat → Cell
  position : Nat

/-- One step of a pass, absent where it fails. -/
abbrev Step (Cell : Type*) := Place Cell → Option (Place Cell)

/-- A memory whose cells from one position up to another one are those of a source. -/
def splice (target source : Nat → Cell) (start stop : Nat) : Nat → Cell := fun position =>
  if start ≤ position ∧ position < stop then source position else target position

/-- One step rewrites a section of a memory, and another one restores it wherever it stands. -/
structure Restored (encode decode : Step Cell) (plain coded : Nat → Cell) (start stop : Nat) :
    Prop where
  ordered : start ≤ stop
  head : start < stop → coded start = plain start
  encoded : ∀ target : Nat → Cell, (∀ position, start ≤ position → target position = plain position) →
    encode ⟨target, start⟩ = some ⟨splice target coded start stop, stop⟩
  decoded : ∀ target : Nat → Cell,
    (∀ position, start ≤ position → position < stop → target position = coded position) →
    target stop = plain stop → decode ⟨target, start⟩ = some ⟨splice target plain start stop, stop⟩

/-- A section of a memory is rewritten in a way that can be restored. -/
def Restores (encode decode : Step Cell) (plain : Nat → Cell) (start stop : Nat) : Prop :=
  ∃ coded, Restored encode decode plain coded start stop

variable {encode decode encode' decode' : Step Cell} {plain target source : Nat → Cell}
  {start middle stop position : Nat}

theorem splice_inside (atLeast : start ≤ position) (below : position < stop) :
    splice target source start stop position = source position := if_pos ⟨atLeast, below⟩

theorem splice_outside (outside : position < start ∨ stop ≤ position) :
    splice target source start stop position = target position := if_neg (by omega)

/-- A section without cells changes nothing. -/
@[simp] theorem splice_self (target source : Nat → Cell) (start : Nat) :
    splice target source start start = target := by
  -- No position lies in such a section.
  funext position
  exact splice_outside (by omega)

/-- A section of a memory written to itself changes nothing. -/
@[simp] theorem splice_same (target : Nat → Cell) (start stop : Nat) :
    splice target target start stop = target := by
  -- Inside of the section and outside of it the cell is the same.
  funext position
  simp only [splice]
  split <;> rfl

/-- Two sections behind each other are one section of their joined sources. -/
theorem splice_splice (target source source' : Nat → Cell) (first : start ≤ middle)
    (second : middle ≤ stop) :
    splice (splice target source start middle) source' middle stop =
      splice target (splice source source' middle stop) start stop := by
  -- A position lies in the second section, or in the first one, or in neither.
  funext position
  simp only [splice]
  by_cases behind : middle ≤ position ∧ position < stop
  · rw [if_pos behind, if_pos behind, if_pos (by omega)]
  · rw [if_neg behind, if_neg behind]
    by_cases before : start ≤ position ∧ position < middle
    · rw [if_pos before, if_pos (by omega)]
    · rw [if_neg before, if_neg (by omega)]

/-- A section depends on the cells of its source in it only. -/
theorem splice_congr {twin : Nat → Cell}
    (same : ∀ position, start ≤ position → position < stop → source position = twin position) :
    splice target source start stop = splice target twin start stop := by
  -- Outside of the section the target stays, whatever the source is.
  funext position
  by_cases inside : start ≤ position ∧ position < stop
  · rw [splice_inside inside.1 inside.2, splice_inside inside.1 inside.2]
    exact same position inside.1 inside.2
  · rw [splice_outside (by omega), splice_outside (by omega)]

/-- The first cell of a section that was rewritten is what it was. -/
theorem Restored.first {coded : Nat → Cell} (restored : Restored encode decode plain coded start stop)
    (same : ∀ position, start ≤ position → position < stop → target position = coded position)
    (next : target stop = plain stop) : target start = plain start := by
  -- A section without cells begins where the next one does.
  rcases Nat.eq_or_lt_of_le restored.ordered with empty | some
  · rw [empty]
    exact next
  · rw [same start (Nat.le_refl start) some]
    exact restored.head some

/-- Steps that pass over a position restore the section without cells. -/
theorem Restores.skip
    (encodes : ∀ target : Nat → Cell, target start = plain start →
      encode ⟨target, start⟩ = some ⟨target, start⟩)
    (decodes : ∀ target : Nat → Cell, target start = plain start →
      decode ⟨target, start⟩ = some ⟨target, start⟩) : Restores encode decode plain start start := by
  -- The memory itself serves as its code, since nothing is written.
  refine ⟨plain, Nat.le_refl start, fun _ => rfl, fun target same => ?_, fun target _ next => ?_⟩
  · rw [encodes target (same start (Nat.le_refl start)), splice_self]
  · rw [decodes target next, splice_self]

/-- Steps that do the same where a section begins with its first cell restore the same section. -/
theorem Restores.congr (restores : Restores encode decode plain start stop)
    (encodes : ∀ target : Nat → Cell, target start = plain start →
      encode' ⟨target, start⟩ = encode ⟨target, start⟩)
    (decodes : ∀ target : Nat → Cell, target start = plain start →
      decode' ⟨target, start⟩ = decode ⟨target, start⟩) : Restores encode' decode' plain start stop := by
  -- Either step begins at a first cell that is plain, where the others do the same.
  obtain ⟨coded, restored⟩ := restores
  refine ⟨coded, restored.ordered, restored.head, fun target same => ?_, fun target same next => ?_⟩
  · rw [encodes target (same start (Nat.le_refl start))]
    exact restored.encoded target same
  · rw [decodes target (restored.first same next)]
    exact restored.decoded target same next

/-- Two steps after each other restore two sections behind each other. -/
theorem Restores.append (first : Restores encode decode plain start middle)
    (second : Restores encode' decode' plain middle stop) :
    Restores (fun place => (encode place).bind encode') (fun place => (decode place).bind decode')
      plain start stop := by
  obtain ⟨coded, restored⟩ := first
  obtain ⟨coded', restored'⟩ := second
  have ordered := restored.ordered
  have ordered' := restored'.ordered
  -- The section as it is coded is made of the two coded sections.
  refine ⟨splice coded coded' middle stop, by omega, ?_, ?_, ?_⟩
  · intro some
    by_cases before : start < middle
    · rw [splice_outside (.inl before)]
      exact restored.head before
    · obtain rfl : start = middle := by omega
      rw [splice_inside (Nat.le_refl start) some]
      exact restored'.head some
  · -- The second step finds its section as it was, behind the rewritten first one.
    intro target same
    have untouched : ∀ position, middle ≤ position →
        splice target coded start middle position = plain position := fun position beyond => by
      rw [splice_outside (.inr beyond)]
      exact same position (by omega)
    rw [restored.encoded target same, Option.bind_some, restored'.encoded _ untouched,
      splice_splice target coded coded' ordered ordered']
  · intro target same next
    have sameSecond : ∀ position, middle ≤ position → position < stop →
        target position = coded' position := fun position atLeast below => by
      rw [same position (by omega) below, splice_inside atLeast below]
    have sameFirst : ∀ position, start ≤ position → position < middle →
        target position = coded position := fun position atLeast below => by
      rw [same position atLeast (by omega), splice_outside (.inl below)]
    -- The second section begins as it did, which is where the first step back looks for its end.
    have between := restored'.first sameSecond next
    rw [restored.decoded target sameFirst between, Option.bind_some,
      restored'.decoded (splice target plain start middle),
      splice_splice target plain plain ordered ordered', splice_same]
    · intro position atLeast below
      rw [splice_outside (.inr atLeast)]
      exact sameSecond position atLeast below
    · rw [splice_outside (.inr ordered')]
      exact next

/-- A memory of which a section was rewritten is restored, and nothing else was rewritten. -/
theorem Restores.whole (restores : Restores encode decode plain start stop) :
    ∃ coded, encode ⟨plain, start⟩ = some ⟨coded, stop⟩ ∧ decode ⟨coded, start⟩ = some ⟨plain, stop⟩ ∧
      ∀ position, position < start ∨ stop ≤ position → coded position = plain position := by
  obtain ⟨coded, restored⟩ := restores
  -- The memory is rewritten in its section only, and so it is restored there.
  refine ⟨splice plain coded start stop, restored.encoded plain fun _ _ => rfl, ?_,
    fun position outside => splice_outside outside⟩
  rw [restored.decoded]
  · congr 2
    funext position
    by_cases inside : start ≤ position ∧ position < stop
    · exact splice_inside inside.1 inside.2
    · rw [splice_outside (by omega), splice_outside (by omega)]
  · exact fun position atLeast below => splice_inside atLeast below
  · exact splice_outside (.inr (Nat.le_refl stop))

end Sections
