import Mathlib.Data.List.Chain
import Mathlib.Data.List.Nodup
import Mathlib.Data.Nat.Init

/-! Sequences of keyed events grouped by key, each event waiting for its turn to come back. -/

namespace Regrouping

variable (key : Nat → Nat)

/-- The numbers of the events with a key, among the first so many. -/
def bin (count group : Nat) : List Nat := (List.range count).filter (key · = group)

/-- The event is the first one with its key. -/
def IsNew (i : Nat) : Prop := ∀ j < i, key j ≠ key i

instance (i : Nat) : Decidable (IsNew key i) := inferInstanceAs (Decidable (∀ j < i, _))

/-- The last event with a key before a number, and the first event of all without one. -/
def lastSeen (group : Nat) : Nat → Nat
  | 0 => 0
  | i + 1 => if key i = group then i else lastSeen group i

/-- The last event with a new key before a number. -/
def lastNew : Nat → Nat
  | 0 => 0
  | i + 1 => if IsNew key i then i else lastNew i

/-- How long an event waits: since the last new key, or since its own key was seen. -/
def wait (i : Nat) : Nat := if IsNew key i then i - lastNew key i else i - lastSeen key (key i) i

/-- How far a new key lies above the new key before it, zero for the keys that are not new. -/
def announced (i : Nat) : Nat :=
  if IsNew key i then key i - (if i = 0 then 0 else key (lastNew key i)) else 0

/-- Among the first so many events new keys come in increasing order. -/
def Rising (count : Nat) : Prop :=
  ∀ i j, i < j → j < count → IsNew key i → IsNew key j → key i < key j

instance (count : Nat) : Decidable (Rising key count) :=
  decidable_of_iff (∀ j < count, ∀ i < j, IsNew key i → IsNew key j → key i < key j)
    ⟨fun rising i j before inside => rising j inside i before,
      fun rising j inside i before => rising i j before inside⟩

variable {key} {count group i j t : Nat}

theorem mem_bin : i ∈ bin key count group ↔ i < count ∧ key i = group := by
  simp [bin, List.mem_filter]

/-- One event more is added to the group of its key. -/
theorem bin_succ : bin key (count + 1) group =
    bin key count group ++ if key count = group then [count] else [] := by
  -- The list of the numbers grows at its end, where the filter keeps the event or drops it.
  rw [bin, List.range_succ, List.filter_append]
  congr 1
  by_cases own : key count = group
  · simp [own]
  · simp [own]

/-- A group is empty exactly if none of its events came. -/
theorem bin_eq_nil_iff : bin key count group = [] ↔ ∀ j < count, key j ≠ group := by
  rw [bin, List.filter_eq_nil_iff]
  simp

/-- An event is new exactly if the group of its key is empty before it. -/
theorem isNew_iff : IsNew key i ↔ bin key i (key i) = [] := bin_eq_nil_iff.symm

variable (key group) in
/-- A group starts with its events before a number. -/
theorem bin_split (earlier : t ≤ count) :
    bin key count group = bin key t group ++ (List.range' t (count - t)).filter (key · = group) := by
  -- The numbers up to the count are those before the given one and those from it on.
  have split := List.range'_append_1 (s := 0) (m := t) (n := count - t)
  rw [Nat.zero_add, Nat.add_sub_cancel' earlier] at split
  rw [bin, bin, ← List.filter_append, List.range_eq_range', List.range_eq_range', split]

/-- The next event of a group, after those before a number, is the first one from that number on. -/
theorem next_spec (earlier : t ≤ count)
    (next : (bin key count group)[(bin key t group).length]? = some i) :
    t ≤ i ∧ i < count ∧ key i = group ∧ ∀ j, t ≤ j → j < i → key j ≠ group := by
  -- The next one is the first with that key among the numbers from there on.
  rw [bin_split key group earlier, List.getElem?_append_right (Nat.le_refl _), Nat.sub_self,
    ← List.head?_eq_getElem?, List.head?_filter, List.find?_range'_eq_some] at next
  obtain ⟨own, member, others⟩ := next
  obtain ⟨atLeast, below⟩ := List.mem_range'_1.mp member
  refine ⟨atLeast, by omega, by simpa using own, fun j lower upper => ?_⟩
  simpa using others j lower upper

/-- All events of an exhausted group came before. -/
theorem all_before (earlier : t ≤ count)
    (exhausted : (bin key t group).length = (bin key count group).length) (inside : j < count)
    (own : key j = group) : j < t := by
  have split := bin_split key group earlier
  -- No event of the group is left among the later numbers.
  have none : (List.range' t (count - t)).filter (key · = group) = [] := by
    have lengths := congrArg List.length split
    rw [List.length_append] at lengths
    exact List.length_eq_zero_iff.mp (by omega)
  have member := mem_bin.mpr ⟨inside, own⟩
  rw [split, none, List.append_nil] at member
  exact (mem_bin.mp member).1

variable (key) in
/-- The last event with a key is not behind the number. -/
theorem lastSeen_le (group t : Nat) : lastSeen key group t ≤ t := by
  -- Each event either is the last seen so far or leaves an earlier one.
  induction t with
  | zero => exact Nat.le_refl 0
  | succ t ih =>
    rw [lastSeen]
    split
    · omega
    · omega

variable (key) in
/-- The last event with a new key is not behind the number. -/
theorem lastNew_le (t : Nat) : lastNew key t ≤ t := by
  -- Each event either is the last new one so far or leaves an earlier one.
  induction t with
  | zero => exact Nat.le_refl 0
  | succ t ih =>
    rw [lastNew]
    split
    · omega
    · omega

/-- As long as a key does not come, its last event stays the same. -/
theorem lastSeen_eq (ordered : t ≤ i) (absent : ∀ j, t ≤ j → j < i → key j ≠ group) :
    lastSeen key group i = lastSeen key group t := by
  -- The events in between have other keys, so none of them replaces the last one.
  induction i, ordered using Nat.le_induction with
  | base => rfl
  | succ i ordered ih =>
    rw [lastSeen, if_neg (absent i ordered (by omega))]
    exact ih fun j lower upper => absent j lower (by omega)

/-- As long as no new key comes, the last new one stays the same. -/
theorem lastNew_eq (ordered : t ≤ i) (absent : ∀ j, t ≤ j → j < i → ¬ IsNew key j) :
    lastNew key i = lastNew key t := by
  -- None of the events in between is new, so each leaves the last new one alone.
  induction i, ordered using Nat.le_induction with
  | base => rfl
  | succ i ordered ih =>
    rw [lastNew, if_neg (absent i ordered (by omega))]
    exact ih fun j lower upper => absent j lower (by omega)

variable (key) in
/-- Every key has a first event. -/
theorem exists_new (i : Nat) : ∃ j ≤ i, IsNew key j ∧ key j = key i := by
  -- A key that came before has its first event where the earlier one has it.
  induction i using Nat.strongRecOn with
  | ind i ih =>
    by_cases new : IsNew key i
    · exact ⟨i, Nat.le_refl i, new, rfl⟩
    · obtain ⟨j, before, same⟩ : ∃ j < i, key j = key i := by
        simpa only [IsNew, not_forall, not_not, exists_prop] using new
      obtain ⟨first, atMost, isNew, own⟩ := ih j before
      exact ⟨first, by omega, isNew, own.trans same⟩

/-- Before the first event there is none, so that one is new. -/
theorem isNew_zero : IsNew key 0 := fun _ none => absurd none (Nat.not_lt_zero _)

variable (key) in
/-- Some new event came before every number but the first. -/
theorem isNew_lastNew (t : Nat) : IsNew key (lastNew key t) := by
  -- The first event is new, and others take its place only where they are.
  induction t with
  | zero => exact isNew_zero
  | succ t ih =>
    rw [lastNew]
    split
    · assumption
    · exact ih

variable (key) in
/-- The last new event comes before any number but the first. -/
theorem lastNew_lt (some : 0 < t) : lastNew key t < t := by
  -- The last number is replaced by one before it.
  obtain ⟨t, rfl⟩ := Nat.exists_eq_succ_of_ne_zero (Nat.pos_iff_ne_zero.mp some)
  rw [lastNew]
  split
  · omega
  · exact Nat.lt_succ_of_le (lastNew_le key t)

/-- The new events before a number are not behind the last of them. -/
theorem le_lastNew (before : j < t) (new : IsNew key j) : j ≤ lastNew key t := by
  -- A new event before the end is the last one itself or lies before it.
  induction t with
  | zero => exact absurd before (Nat.not_lt_zero j)
  | succ t ih =>
    rw [lastNew]
    split
    · -- A new event at the end is the last one, and all others are before it.
      omega
    · rename_i old
      have other : j ≠ t := fun same => old (same ▸ new)
      exact ih (by omega)

/-- Between the last new key and the next one no key came. -/
theorem bin_eq_nil_of_gap (rising : Rising key count) (inside : i < count) (new : IsNew key i)
    (some : 0 < i) {skip : Nat} (small : skip < announced key i) :
    bin key i (key i - skip) = [] := by
  rw [announced, if_pos new, if_neg (by omega)] at small
  rw [bin_eq_nil_iff]
  intro j before same
  obtain ⟨first, atMost, isFirst, own⟩ := exists_new key j
  -- The first event with that key is not behind the last new one, so its key is not above.
  have atLeast := le_lastNew (show first < i by omega) isFirst
  rcases Nat.eq_or_lt_of_le atLeast with equal | earlier
  · rw [← equal] at small
    omega
  · have newest := lastNew_lt key some
    have := rising first _ earlier (by omega) isFirst (isNew_lastNew key i)
    omega

/-- The new key before a new key lies as far below as is announced. -/
theorem add_announced (rising : Rising key count) (inside : i < count) (new : IsNew key i)
    (some : 0 < i) :
    key (lastNew key i) + announced key i = key i ∧ 0 < announced key i := by
  -- New keys rise, so what is announced is a positive difference.
  have lower := rising _ i (lastNew_lt key some) inside (isNew_lastNew key i) new
  rw [announced, if_pos new, if_neg (by omega)]
  omega

section Turn

/-- Every key below a group that comes at all has come before a number. -/
def Appeared (key : Nat → Nat) (count group t : Nat) : Prop :=
  ∀ j < count, IsNew key j → key j < group → j < t

/-- An event of a key that came before has waited exactly if it is its turn. -/
theorem old_turn_iff (ordered : t ≤ i) (old : ¬ IsNew key i)
    (next : ∀ j, t ≤ j → j < i → key j ≠ key i) :
    wait key i = t - lastSeen key (key i) t ↔ i = t := by
  -- The wait is counted from the last event with the key, which the gap does not move.
  have bounded := lastSeen_le key (key i) t
  rw [wait, if_neg old, lastSeen_eq ordered next]
  omega

/-- An event of a new key has waited exactly if it is its turn, once all lower keys have come. -/
theorem new_turn_iff (rising : Rising key count) (inside : i < count) (ordered : t ≤ i)
    (new : IsNew key i) (appeared : Appeared key count (key i) t) :
    wait key i = t - lastNew key t ↔ i = t := by
  -- A new key in between would be a lower one, and the lower ones have all come.
  have none : ∀ j, t ≤ j → j < i → ¬ IsNew key j := by
    intro j lower upper newer
    have := appeared j (by omega) newer (rising j i upper inside newer new)
    omega
  have bounded := lastNew_le key t
  rw [wait, if_pos new, lastNew_eq ordered none]
  omega

/-- A group whose turn has not come does not hold up the event whose turn it is. -/
theorem not_new_of_lower (rising : Rising key count) (inside : i < count) (later : t < i)
    (lower : key i < key t) : ¬ IsNew key i := by
  intro new
  -- The key whose turn it is has its first event before, and new keys only rise.
  obtain ⟨first, atMost, isNew, own⟩ := exists_new key t
  have := rising first i (by omega) inside isNew new
  omega

end Turn

section Order

variable (key count)

/-- All events in the order of their groups. -/
def order (groups : Nat) : List Nat := (List.range groups).flatMap (bin key count)

/-- What may stand behind an event in the order of the groups: the same key, or the next new one. -/
def Follows (i j : Nat) : Prop :=
  (key j = key i ∧ ¬ IsNew key j) ∨ (IsNew key j ∧ 0 < j ∧ key i = key (lastNew key j))

variable {key count} {groups : Nat}

/-- One group more comes last. -/
theorem order_succ : order key count (groups + 1) =
    order key count groups ++ bin key count groups := by
  rw [order, List.range_succ, List.flatMap_append, ← order, List.flatMap_singleton]

theorem mem_order : i ∈ order key count groups ↔ i < count ∧ key i < groups := by
  -- Each event stands in the group of its own key and in no other one.
  simp only [order, List.mem_flatMap, List.mem_range, mem_bin]
  constructor
  · rintro ⟨group, below, inside, rfl⟩
    exact ⟨inside, below⟩
  · rintro ⟨inside, below⟩
    exact ⟨key i, below, inside, rfl⟩

/-- In the order of the groups each group stands as it is. -/
theorem order_filter (below : group < groups) :
    (order key count groups).filter (key · = group) = bin key count group := by
  -- The groups before a bound hold no event of a key from the bound on.
  have others : ∀ bound other, bound ≤ other →
      (order key count bound).filter (key · = other) = [] := by
    intro bound other atMost
    rw [List.filter_eq_nil_iff]
    intro i member
    have := (mem_order.mp member).2
    simp only [decide_eq_true_eq]
    omega
  induction groups with
  | zero => exact absurd below (Nat.not_lt_zero _)
  | succ groups ih =>
    rw [order_succ, List.filter_append]
    by_cases last : group = groups
    · subst last
      -- The group that comes last is the first to hold its events.
      rw [others group group (Nat.le_refl _), List.nil_append, bin, List.filter_filter]
      simp
    · rw [ih (by omega)]
      -- The group that comes last adds events of its own key only.
      have none : (bin key count groups).filter (key · = group) = [] := by
        rw [List.filter_eq_nil_iff]
        intro i member
        have := (mem_bin.mp member).2
        simp only [decide_eq_true_eq]
        omega
      rw [none, List.append_nil]

/-- With all groups the order has all events. -/
theorem order_length (all : ∀ i < count, key i < groups) :
    (order key count groups).length = count := by
  -- An event stands in the group of its key and in no other.
  have nodup : (order key count groups).Nodup := by
    rw [order, List.nodup_flatMap]
    constructor
    · intro group _
      exact List.nodup_range.filter _
    · exact List.nodup_range.pairwise_of_forall_ne fun first _ second _ different => by
        intro i inFirst inSecond
        exact different ((mem_bin.mp inFirst).2.symm.trans (mem_bin.mp inSecond).2)
  -- Without repetition, the same members make the same length.
  have same : (order key count groups).Perm (List.range count) := by
    rw [List.perm_ext_iff_of_nodup nodup List.nodup_range]
    intro i
    rw [mem_order, List.mem_range]
    exact ⟨fun inside => inside.1, fun inside => ⟨inside, all i inside⟩⟩
  rw [same.length_eq, List.length_range]

/-- The first event of a group is new. -/
theorem isNew_of_head (head : i ∈ (bin key count group).head?) : IsNew key i ∧ key i = group := by
  -- Nothing before the first event of a group has its key.
  rw [Option.mem_def, List.head?_eq_getElem?] at head
  obtain ⟨_, _, own, others⟩ := next_spec (t := 0) (Nat.zero_le count) head
  exact ⟨fun j before => own ▸ others j (Nat.zero_le j) before, own⟩

/-- Within a group every event but the first is not new. -/
theorem bin_chain : (bin key count group).IsChain (Follows key) := by
  -- A group keeps its events in the order in which they came.
  have rising : (bin key count group).Pairwise (· < ·) := List.pairwise_lt_range.filter _
  apply List.Pairwise.isChain
  refine rising.imp_of_mem fun {i j} inI inJ before => .inl ?_
  have same : key i = key j := (mem_bin.mp inI).2.trans (mem_bin.mp inJ).2.symm
  exact ⟨same.symm, fun new => new i before same⟩

/-- Behind a group stands the next key that is new. -/
theorem follows_of_last (rising : Rising key count) {last next : Nat}
    (isLast : last ∈ order key count groups)
    (highest : ∀ j < count, key j < groups → key j ≤ key last)
    (new : IsNew key next) (own : key next = groups) (inside : next < count) :
    Follows key last next := by
  obtain ⟨lastInside, below⟩ := mem_order.mp isLast
  obtain ⟨first, atMost, isFirst, same⟩ := exists_new key last
  -- The key of the last event is below that of the next, so its first event came before.
  have before : first < next := by
    rcases Nat.lt_trichotomy first next with lower | equal | higher
    · exact lower
    · rw [equal] at same
      omega
    · have := rising next first higher (by omega) new isFirst
      omega
  have newest := lastNew_lt key (show 0 < next by omega)
  have isNewest := isNew_lastNew key next
  have atLeast := le_lastNew before isFirst
  have lower := rising _ next newest inside isNewest new
  have bounded := highest (lastNew key next) (by omega) (by omega)
  refine .inr ⟨new, by omega, ?_⟩
  -- A new key in between would be above that of the last event, which is the highest so far.
  rcases Nat.eq_or_lt_of_le atLeast with equal | later
  · rw [← equal, same]
  · have := rising first _ later (by omega) isFirst isNewest
    omega

/-- The order of the groups: it starts with the first event, and each event follows the one before. -/
theorem order_spec (rising : Rising key count) (groups : Nat) :
    (order key count groups).IsChain (Follows key) ∧
      (∀ i ∈ (order key count groups).head?, i = 0) ∧
      ∀ i ∈ (order key count groups).getLast?, ∀ j < count, key j < groups → key j ≤ key i := by
  induction groups with
  | zero => simp [order]
  | succ groups ih =>
    obtain ⟨chain, first, highest⟩ := ih
    rw [order_succ]
    cases isBin : bin key count groups with
    | nil =>
      rw [List.append_nil]
      refine ⟨chain, first, fun i last j inside below => highest i last j inside ?_⟩
      have := bin_eq_nil_iff.mp isBin j inside
      omega
    | cons next rest =>
      obtain ⟨new, own⟩ := isNew_of_head (show next ∈ (bin key count groups).head? by rw [isBin]; rfl)
      have inside : next < count := (mem_bin.mp (isBin ▸ List.mem_cons_self)).1
      refine ⟨?_, ?_, ?_⟩
      · rw [← isBin]
        refine chain.append bin_chain fun last isLast j head => ?_
        rw [isBin] at head
        cases head
        exact follows_of_last rising (List.mem_of_getLast? isLast) (highest last isLast) new own inside
      · intro i head
        cases isOrder : order key count groups with
        | nil =>
          rw [isOrder] at head
          cases head
          -- Without lower keys the first event of all is the first of this group.
          by_contra later
          have lower := rising 0 next (by omega) inside isNew_zero new
          have member := mem_order.mpr ⟨show 0 < count by omega, own ▸ lower⟩
          rw [isOrder] at member
          exact List.not_mem_nil member
        | cons head' tail =>
          rw [isOrder] at head
          apply first i
          rw [isOrder]
          exact head
      · intro i last j _ below
        rw [List.getLast?_append_of_ne_nil _ (List.cons_ne_nil next rest), ← isBin] at last
        have := (mem_bin.mp (List.mem_of_getLast? last)).2
        omega

end Order

end Regrouping
