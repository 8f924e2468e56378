import Mathlib.Data.List.Nodup

/-! Trees whose branches hold named items and named branches, and the walk through all of them. -/

/-- What one branch of a tree holds, in the order of its listing. -/
inductive NamedTree (Name Item : Type*) where
  | nil
  | leaf (name : Name) (item : Item) (rest : NamedTree Name Item)
  | branch (name : Name) (inside rest : NamedTree Name Item)

namespace NamedTree

variable {Name Item : Type*}

/-- The names in the outermost listing. -/
def names : NamedTree Name Item → List Name
  | nil => []
  | leaf name _ rest | branch name _ rest => name :: rest.names

/-- No listing holds a name twice. -/
def Distinct : NamedTree Name Item → Prop
  | nil => True
  | leaf name _ rest => name ∉ rest.names ∧ rest.Distinct
  | branch name inside rest => name ∉ rest.names ∧ inside.Distinct ∧ rest.Distinct

/-- Something stands at the end of a path of names: an item, or a branch, which is no item. -/
inductive At : NamedTree Name Item → List Name → Option Item → Prop where
  | leaf {name item rest} : At (.leaf name item rest) [name] (some item)
  | branch {name inside rest} : At (.branch name inside rest) [name] none
  | inside {name inside rest path found} (below : At inside path found) :
      At (.branch name inside rest) (name :: path) found
  | behindLeaf {name item rest path found} (behind : At rest path found) :
      At (.leaf name item rest) path found
  | behindBranch {name inside rest path found} (behind : At rest path found) :
      At (.branch name inside rest) path found

/-- The walk that stops at everything in a tree, at a branch before at what it holds. -/
def walk (start : List Name) : NamedTree Name Item → List (List Name × Option Item)
  | nil => []
  | leaf name item rest => (start ++ [name], some item) :: rest.walk start
  | branch name inside rest =>
    (start ++ [name], none) :: (inside.walk (start ++ [name]) ++ rest.walk start)

/-- The walk stops exactly at what stands in the tree, its paths continuing the first one. -/
theorem mem_walk {tree : NamedTree Name Item} {start path : List Name} {found : Option Item} :
    (path, found) ∈ tree.walk start ↔ ∃ below, tree.At below found ∧ path = start ++ below := by
  -- The ways of standing in a listing are the ways of being met on the walk through it.
  induction tree generalizing start with
  | nil =>
    simp only [walk, List.not_mem_nil, false_iff]
    intro ⟨below, stands, _⟩
    cases stands
  | leaf name item rest ih =>
    simp only [walk, List.mem_cons, Prod.mk.injEq, ih]
    constructor
    · intro met
      cases met with
      | inl here =>
        obtain ⟨same, same'⟩ := here
        subst same same'
        exact ⟨[name], .leaf, rfl⟩
      | inr later =>
        obtain ⟨below, stands, same⟩ := later
        exact ⟨below, .behindLeaf stands, same⟩
    · intro ⟨below, stands, same⟩
      cases stands with
      | leaf => exact .inl ⟨same, rfl⟩
      | behindLeaf behind => exact .inr ⟨below, behind, same⟩
  | branch name inside rest ihInside ihRest =>
    simp only [walk, List.mem_cons, Prod.mk.injEq, List.mem_append, ihInside, ihRest]
    constructor
    · intro met
      cases met with
      | inl here =>
        obtain ⟨same, same'⟩ := here
        subst same same'
        exact ⟨[name], .branch, rfl⟩
      | inr further =>
        cases further with
        | inl deeper =>
          obtain ⟨below, stands, same⟩ := deeper
          exact ⟨name :: below, .inside stands, by simp [same]⟩
        | inr later =>
          obtain ⟨below, stands, same⟩ := later
          exact ⟨below, .behindBranch stands, same⟩
    · intro ⟨below, stands, same⟩
      cases stands with
      | branch => exact .inl ⟨same, rfl⟩
      | @inside _ _ _ path _ deeper => exact .inr (.inl ⟨path, deeper, by simp [same]⟩)
      | behindBranch behind => exact .inr (.inr ⟨below, behind, same⟩)

/-- A path begins with a name of the outermost listing. -/
theorem At.cons {tree : NamedTree Name Item} {path : List Name} {found : Option Item}
    (stands : tree.At path found) : ∃ name ∈ tree.names, ∃ below, path = name :: below := by
  -- What stands behind an entry begins with a name behind it.
  induction stands with
  | leaf | branch => exact ⟨_, List.mem_cons_self, [], rfl⟩
  | inside below ih => exact ⟨_, List.mem_cons_self, _, rfl⟩
  | behindLeaf behind ih | behindBranch behind ih =>
    obtain ⟨name, member, below, same⟩ := ih
    exact ⟨name, List.mem_cons_of_mem _ member, below, same⟩

/-- The walk through a listing without a name meets no path that goes on with that name. -/
theorem not_mem_walk {tree : NamedTree Name Item} {start below : List Name} {name : Name}
    (absent : name ∉ tree.names) : start ++ name :: below ∉ (tree.walk start).map Prod.fst := by
  -- Whatever is met goes on with a name of the listing.
  intro member
  obtain ⟨stop, met, same⟩ := List.mem_map.mp member
  obtain ⟨below', stands, path⟩ := mem_walk.mp met
  obtain ⟨first, listed, further, split⟩ := stands.cons
  rw [path, split] at same
  have firstSame : first = name := by simpa using congrArg List.head? (List.append_cancel_left same)
  exact absent (firstSame ▸ listed)

/-- Where no listing holds a name twice, the walk stops nowhere twice. -/
theorem walk_nodup {tree : NamedTree Name Item} (distinct : tree.Distinct) (start : List Name) :
    ((tree.walk start).map Prod.fst).Nodup := by
  -- Paths into a branch go on with its name, and paths behind it with another one.
  induction tree generalizing start with
  | nil => exact List.nodup_nil
  | leaf name item rest ih =>
    obtain ⟨absent, distinctRest⟩ := distinct
    rw [walk, List.map_cons, List.nodup_cons]
    exact ⟨not_mem_walk absent, ih distinctRest start⟩
  | branch name inside rest ihInside ihRest =>
    obtain ⟨absent, distinctInside, distinctRest⟩ := distinct
    rw [walk, List.map_cons, List.map_append, List.nodup_cons, List.mem_append]
    refine ⟨?_, ?_⟩
    · intro again
      cases again with
      | inl deeper =>
        obtain ⟨stop, met, same⟩ := List.mem_map.mp deeper
        obtain ⟨below, stands, path⟩ := mem_walk.mp met
        obtain ⟨first, _, further, split⟩ := stands.cons
        rw [path, split] at same
        simp at same
      | inr later => exact not_mem_walk absent later
    · refine (ihInside distinctInside _).append (ihRest distinctRest start) ?_
      intro path deeper later
      obtain ⟨stop, met, same⟩ := List.mem_map.mp deeper
      obtain ⟨below, stands, continued⟩ := mem_walk.mp met
      rw [continued] at same
      rw [← same, List.append_assoc] at later
      exact not_mem_walk absent later

end NamedTree
