import Mathlib.Data.List.SplitBy

/-! Maximal blocks of neighbours sharing a key, and what a left-to-right scan closes of them. -/

namespace Blocks

variable {α κ : Type*} [DecidableEq κ] (key : α → κ)

/-- The maximal blocks of consecutive items with one key, in list order. -/
def blocks (items : List α) : List (List α) :=
  items.splitBy fun first second => key first == key second

/-- Items sharing one key. -/
def Uniform (items : List α) : Prop :=
  ∀ first ∈ items, ∀ second ∈ items, key first = key second

/-- A block at its place in the list: uniform, and bounded by other keys on both sides. -/
structure Maximal (before block after : List α) : Prop where
  nonempty : block ≠ []
  uniform : Uniform key block
  left : ∀ first ∈ before.getLast?, ∀ second ∈ block.head?, key first ≠ key second
  right : ∀ first ∈ block.getLast?, ∀ second ∈ after.head?, key first ≠ key second

variable {key}

@[simp] theorem blocks_nil : blocks key [] = [] := rfl

variable (key) in
/-- The blocks are the list cut into pieces. -/
@[simp] theorem flatten_blocks (items : List α) : (blocks key items).flatten = items :=
  List.flatten_splitBy _ _

/-- No block is empty. -/
theorem ne_nil_of_mem_blocks {items block : List α} (member : block ∈ blocks key items) :
    block ≠ [] :=
  List.ne_nil_of_mem_splitBy member

/-- Neighbours with equal keys throughout make the whole list uniform. -/
theorem uniform_of_isChain {items : List α}
    (chain : items.IsChain fun first second => (key first == key second) = true) :
    Uniform key items := by
  -- Equality of keys is an equivalence, so it reaches beyond neighbours.
  let SameKey := fun first second : α => key first = key second
  have transitive : IsTrans α SameKey := ⟨fun _ _ _ early late => early.trans late⟩
  have symmetric : Std.Symm SameKey := ⟨fun _ _ same => same.symm⟩
  have pairs : items.Pairwise SameKey :=
    (chain.imp fun _ _ same => by simpa using same : items.IsChain SameKey).pairwise
  intro first inFirst second inSecond
  exact List.Pairwise.forall_of_forall (R := SameKey) (fun _ _ => rfl) pairs inFirst inSecond

/-- In a uniform list every two neighbours have equal keys. -/
theorem isChain_of_uniform {items : List α} (uniform : Uniform key items) :
    items.IsChain fun first second => (key first == key second) = true := by
  -- Uniformity already compares every pair.
  apply List.Pairwise.isChain
  apply List.pairwise_of_forall_mem_list
  intro first inFirst second inSecond
  simpa using uniform first inFirst second inSecond

/-- Every block is uniform. -/
theorem uniform_of_mem_blocks {items block : List α} (member : block ∈ blocks key items) :
    Uniform key block :=
  uniform_of_isChain (List.isChain_of_mem_splitBy member)

/-- A nonempty uniform list is its own only block. -/
theorem blocks_of_uniform {items : List α} (nonempty : items ≠ [])
    (uniform : Uniform key items) : blocks key items = [items] :=
  List.splitBy_of_isChain nonempty (isChain_of_uniform uniform)

/-- Where the key changes, the blocks of both sides are computed apart. -/
theorem blocks_append {before after : List α}
    (change : ∀ first ∈ before.getLast?, ∀ second ∈ after.head?, key first ≠ key second) :
    blocks key (before ++ after) = blocks key before ++ blocks key after := by
  -- Mathlib's cut needs the Boolean comparison at the seam to fail.
  apply List.splitBy_append
  intro first inFirst second inSecond
  simpa using change first inFirst second inSecond

/-- Pieces that are uniform, with the key changing from each to the next, are the blocks. -/
theorem blocks_flatten {pieces : List (List α)} (nonempty : [] ∉ pieces)
    (uniform : ∀ piece ∈ pieces, Uniform key piece)
    (change : pieces.IsChain fun first second =>
      ∃ lastOfFirst headOfSecond,
        key (first.getLast lastOfFirst) ≠ key (second.head headOfSecond)) :
    blocks key pieces.flatten = pieces := by
  -- These are the three conditions that characterise the cut.
  apply List.splitBy_flatten nonempty
  · intro piece member
    exact isChain_of_uniform (uniform piece member)
  · refine change.imp ?_
    rintro first second ⟨lastOfFirst, headOfSecond, differ⟩
    exact ⟨lastOfFirst, headOfSecond, by simpa using differ⟩

/-- A maximal block stands among the blocks exactly between those of its two sides. -/
theorem Maximal.blocks_eq {before block after : List α} (maximal : Maximal key before block after) :
    blocks key (before ++ block ++ after) =
      blocks key before ++ block :: blocks key after := by
  -- Cut first behind the block and then in front of it.
  have ends : (before ++ block).getLast? = block.getLast? := by
    rw [List.getLast?_append, Option.or_of_isSome]
    simpa [List.getLast?_isSome] using maximal.nonempty
  rw [blocks_append (by rw [ends]; exact maximal.right), blocks_append maximal.left,
    blocks_of_uniform maximal.nonempty maximal.uniform]
  simp

/-- Every block is maximal at its own place in the list. -/
theorem maximal_of_blocks_eq {items block : List α} {early late : List (List α)}
    (split : blocks key items = early ++ block :: late) :
    items = early.flatten ++ block ++ late.flatten ∧
      Maximal key early.flatten block late.flatten := by
  -- The boundary conditions are those between neighbouring blocks.
  have member : block ∈ blocks key items := by simp [split]
  have present : ∀ piece ∈ early ++ block :: late, piece ≠ [] := by
    intro piece inside
    exact ne_nil_of_mem_blocks (split ▸ inside)
  have seams := List.isChain_getLast_head_splitBy (fun first second => key first == key second) items
  change (blocks key items).IsChain _ at seams
  rw [split, List.isChain_append] at seams
  obtain ⟨_, later, early_block⟩ := seams
  refine ⟨?_, ne_nil_of_mem_blocks member, uniform_of_mem_blocks member, ?_, ?_⟩
  · rw [← flatten_blocks key items, split]
    simp
  · intro first inFirst second inSecond
    -- The item before the block ends the block in front of it.
    rcases List.eq_nil_or_concat early with rfl | ⟨front, last, rfl⟩
    · simp at inFirst
    obtain ⟨lastNonempty, blockNonempty, differ⟩ := early_block last (by simp) block (by simp)
    have isLast : last.getLast lastNonempty = first := by
      simpa [List.getLast?_append, List.getLast?_eq_some_getLast lastNonempty] using inFirst
    have isHead : block.head blockNonempty = second := by
      simpa [List.head?_eq_some_head blockNonempty] using inSecond
    simpa [isLast, isHead] using differ
  · intro first inFirst second inSecond
    -- The item behind the block begins the block after it.
    cases late with
    | nil => simp at inSecond
    | cons next rest =>
      obtain ⟨blockNonempty, nextNonempty, differ⟩ := (List.isChain_cons.mp later).1 next (by simp)
      have isLast : block.getLast blockNonempty = first := by
        simpa [List.getLast?_eq_some_getLast blockNonempty] using inFirst
      have isHead : next.head nextNonempty = second := by
        simpa [List.head?_append, List.head?_eq_some_head nextNonempty] using inSecond
      simpa [isLast, isHead] using differ

/-- One more item either lengthens the last block or opens a new one. -/
theorem blocks_concat_same {items last : List α} {front : List (List α)} {item : α}
    (split : blocks key items = front ++ [last])
    (same : ∀ previous ∈ last.getLast?, key item = key previous) :
    blocks key (items ++ [item]) = front ++ [last ++ [item]] := by
  -- The lengthened block is maximal at the same place as the block before it.
  obtain ⟨whole, maximal⟩ := maximal_of_blocks_eq split
  have frontBlocks : blocks key front.flatten = front := by
    have cut := maximal.blocks_eq
    rw [← whole, split] at cut
    exact (List.append_cancel_right cut).symm
  obtain ⟨previous, isLast⟩ : ∃ previous, last.getLast? = some previous :=
    ⟨_, List.getLast?_eq_some_getLast maximal.nonempty⟩
  have previousMem : previous ∈ last := List.mem_of_getLast? isLast
  have keyOf : ∀ member ∈ last ++ [item], key member = key previous := by
    intro member inside
    rcases List.mem_append.mp inside with inside | inside
    · exact maximal.uniform member inside previous previousMem
    · rw [List.mem_singleton.mp inside]
      exact same previous isLast
  have longer : Maximal key front.flatten (last ++ [item]) [] := by
    refine ⟨by simp, ?_, ?_, by simp⟩
    · intro first inFirst second inSecond
      rw [keyOf first inFirst, keyOf second inSecond]
    · intro first inFirst second inSecond
      apply maximal.left first inFirst second
      rwa [List.head?_append_of_ne_nil _ maximal.nonempty] at inSecond
  have cut := longer.blocks_eq
  rw [frontBlocks, blocks_nil, List.append_nil] at cut
  rw [whole, List.flatten_nil, List.append_nil, List.append_assoc]
  exact cut

/-- An item with another key than the one before it opens a new block. -/
theorem blocks_concat_change {items : List α} {item : α}
    (change : ∀ previous ∈ items.getLast?, key item ≠ key previous) :
    blocks key (items ++ [item]) = blocks key items ++ [[item]] := by
  -- The new item alone is uniform, and the seam in front of it is a cut.
  have alone : blocks key [item] = [[item]] := by
    apply blocks_of_uniform (by simp)
    intro first inFirst second inSecond
    rw [List.mem_singleton.mp inFirst, List.mem_singleton.mp inSecond]
  rw [blocks_append, alone]
  intro first inFirst second inSecond
  have isItem : item = second := by simpa using inSecond
  exact isItem ▸ (change first inFirst).symm

/-- The last item of a list ends its last block. -/
theorem getLast?_of_blocks {items last : List α} {front : List (List α)}
    (split : blocks key items = front ++ [last]) : items.getLast? = last.getLast? := by
  -- The last block is not empty, so it supplies the list's last item.
  have nonempty : last ≠ [] := ne_nil_of_mem_blocks (show last ∈ blocks key items by simp [split])
  rw [← flatten_blocks key items, split, List.flatten_append, List.flatten_cons,
    List.flatten_nil, List.append_nil, List.getLast?_append, Option.or_of_isSome]
  exact List.getLast?_isSome.mpr nonempty

/-- A scan's blocks: those already closed by a later key, and the one still open. -/
structure Scan (α : Type*) where
  closed : List (List α) := []
  current : List α := []

/-- One item closes the open block when its key differs from the block's last one. -/
def Scan.feed (key : α → κ) (scan : Scan α) (item : α) : Scan α :=
  -- The item then belongs to the open block, which may have just been emptied.
  match scan.current.getLast? with
  | some previous =>
    if key item = key previous then { scan with current := scan.current ++ [item] }
    else { closed := scan.closed ++ [scan.current], current := [item] }
  | none => { scan with current := scan.current ++ [item] }

/-- A scan has closed every block of what it consumed except the last, which it holds open. -/
theorem Scan.foldl_feed (items : List α) :
    items.foldl (Scan.feed key) {} =
      { closed := (blocks key items).dropLast, current := (blocks key items).getLast?.getD [] } := by
  -- Items are consumed from the left, so the induction appends one at the right.
  induction items using List.reverseRecOn with
  | nil => rfl
  | append_singleton items item ih =>
    rw [List.foldl_append, ih, List.foldl_cons, List.foldl_nil]
    rcases List.eq_nil_or_concat (blocks key items) with empty | ⟨front, last, split⟩
    · -- Nothing was consumed before, so the item opens the first block.
      have nothing : items = [] := by simpa [empty] using (flatten_blocks key items).symm
      subst nothing
      rw [blocks_concat_change (by simp)]
      simp [Scan.feed]
    · rw [List.concat_eq_append] at split
      have nonempty : last ≠ [] :=
        ne_nil_of_mem_blocks (show last ∈ blocks key items by simp [split])
      have isLast := List.getLast?_eq_some_getLast nonempty
      by_cases same : key item = key (last.getLast nonempty)
      · rw [blocks_concat_same split (by simpa [isLast] using same), split]
        simp [Scan.feed, isLast, same]
      · rw [blocks_concat_change (by simpa [getLast?_of_blocks split, isLast] using same), split]
        simp [Scan.feed, isLast, same]

/-- The block a scan holds open is uniform. -/
theorem Scan.uniform_foldl_feed (items : List α) :
    Uniform key (items.foldl (Scan.feed key) {}).current := by
  -- It is the last block, or empty when nothing was consumed.
  rw [Scan.foldl_feed]
  cases isLast : (blocks key items).getLast? with
  | none => simp [Uniform]
  | some last => exact uniform_of_mem_blocks (List.mem_of_getLast? isLast)

end Blocks
