import Mathlib.Data.List.Basic

/-! Lists of outcomes, each a list or an error, put together in order. -/

namespace Outcomes

universe u

variable {ε ι : Type*} {α : Type u}

/-- The lists of all outcomes one after the other, unless one of them is an error. -/
def concatenated : List (Except ε (List α)) → Except ε (List α)
  | [] => .ok []
  | outcome :: rest => do return (← outcome) ++ (← concatenated rest)

/-- The list of an outcome, which is empty for an error. -/
def values : Except ε (List α) → List α
  | .ok items => items
  | .error _ => []

@[simp] theorem values_ok (items : List α) : values (.ok items : Except ε (List α)) = items := rfl

/-- Outcomes can be put together exactly when none of them is an error. -/
theorem concatenated_ok_iff (outcomes : List (Except ε (List α))) (all : List α) :
    concatenated outcomes = .ok all ↔
      (∀ outcome ∈ outcomes, ∃ items, outcome = .ok items) ∧ outcomes.flatMap values = all := by
  -- The first outcome is asked first, then the others.
  induction outcomes generalizing all with
  | nil => simp [concatenated]
  | cons outcome rest ih =>
    cases outcome with
    | error failure => simp [concatenated, Bind.bind, Except.bind]
    | ok items =>
      cases behind : concatenated rest with
      | error failure =>
        have someError : ¬ ∀ outcome ∈ rest, ∃ items, outcome = .ok items := by
          intro none
          have together := (ih (rest.flatMap values)).mpr ⟨none, rfl⟩
          simp [behind] at together
        simp [concatenated, behind, Bind.bind, Except.bind, someError]
      | ok others =>
        obtain ⟨allOk, joined⟩ := (ih others).mp behind
        have whole : concatenated (.ok items :: rest) = .ok (items ++ others) := by
          simp [concatenated, behind, Bind.bind, Except.bind, Pure.pure, Except.pure]
        rw [whole, List.forall_mem_cons, List.flatMap_cons, joined, Except.ok.injEq]
        exact ⟨fun same => ⟨⟨⟨items, rfl⟩, allOk⟩, same⟩, fun both => both.2⟩

/-- A loop whose iterations ask for something first goes through when every answer is there. -/
theorem foldlM_ok_iff {β : Type*} {γ : Type u} (ask : β → Except ε α) (next : γ → α → γ)
    (items : List β) (start last : γ) :
    items.foldlM (fun now item => do return next now (← ask item)) start = .ok last ↔
      ∃ answers : List α, items.map ask = answers.map .ok ∧ answers.foldl next start = last := by
  -- The first iteration takes the first answer, and the others go on from there.
  induction items generalizing start with
  | nil => simp [Pure.pure, Except.pure]
  | cons item rest ih =>
    cases asked : ask item with
    | error failure =>
      simp only [List.foldlM_cons, asked, Bind.bind, Except.bind, List.map_cons, reduceCtorEq,
        false_iff, not_exists, not_and]
      intro answers same
      cases answers with
      | nil => cases same
      | cons answer answers => cases same
    | ok answer =>
      rw [List.foldlM_cons, asked]
      refine (ih (next start answer)).trans ?_
      constructor
      · intro ⟨answers, same, folded⟩
        exact ⟨answer :: answers, by simp [asked, same], folded⟩
      · intro ⟨answers, same, folded⟩
        cases answers with
        | nil => cases same
        | cons first answers =>
          simp only [List.map_cons, asked, List.cons.injEq, Except.ok.injEq] at same
          exact ⟨answers, same.2, same.1 ▸ folded⟩

/-- Lists that are no longer than others have together no more than the others. -/
theorem length_flatMap_le {few many : ι → List α} {keys : List ι}
    (fewer : ∀ key ∈ keys, (few key).length ≤ (many key).length) :
    (keys.flatMap few).length ≤ (keys.flatMap many).length := by
  -- The lengths add up list by list.
  induction keys with
  | nil => simp
  | cons key rest ih =>
    obtain ⟨here, behind⟩ := List.forall_mem_cons.mp fewer
    have less := ih behind
    simp only [List.flatMap_cons, List.length_append]
    omega

/-- Lists that are no longer than others, and together as long, are each as long. -/
theorem length_eq_of_flatMap {few many : ι → List α} {keys : List ι}
    (fewer : ∀ key ∈ keys, (few key).length ≤ (many key).length)
    (together : (keys.flatMap few).length = (keys.flatMap many).length) :
    ∀ key ∈ keys, (few key).length = (many key).length := by
  -- Neither the first list nor the others can make up for the other's lack.
  induction keys with
  | nil => simp
  | cons key rest ih =>
    obtain ⟨here, behind⟩ := List.forall_mem_cons.mp fewer
    have less := length_flatMap_le behind
    simp only [List.flatMap_cons, List.length_append] at together
    rw [List.forall_mem_cons]
    exact ⟨by omega, ih behind (by omega)⟩

end Outcomes
