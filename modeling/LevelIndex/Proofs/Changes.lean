import LevelIndex.Proofs.History

/-!
# What a call does to the tree

Questions change nothing, and a batch of operations is an insert, a removal or a
question (`call_eq_ok`). So what a call that goes through does to the tree is
one of two things: the tree grows by an insert, which takes nothing out of it,
or it thins out by a removal, which leaves some of the nodes of each level
(`call_changes`). Both are what `Extends` and `Thins` say.

Later modules that follow a tree through a history (its height, its slots, its
orphans) start from `call_changes` and look at neither the kinds of calls nor
the courses of batches.
-/

namespace LevelIndex

namespace Index

section Call

variable {x x' : Index}

theorem applyKind_eq_ok {kind : Operation.Kind} {ops : List Operation}
    {outcome : BatchOutcome} {events : List Event}
    (h : x.applyKind kind ops = .ok (x', outcome, events)) :
    x' = x ∨ (∃ batch events, x.insert batch = .ok (x', events)) ∨
      ∃ keys events, x.remove keys = .ok (x', events) := by
  cases kind <;> obtain ⟨v, hv, h⟩ := bind_eq_ok.mp h <;> cases h
  case get => exact Or.inl rfl
  case predecessor => exact Or.inl rfl
  case remove => exact Or.inr (Or.inr ⟨_, _, hv⟩)
  all_goals exact Or.inr (Or.inl ⟨_, _, hv⟩)

theorem call_eq_ok {c : Call} {a : Answer} (h : x.call c = .ok (x', a)) :
    x' = x ∨ (∃ batch events, x.insert batch = .ok (x', events)) ∨
      ∃ keys events, x.remove keys = .ok (x', events) := by
  cases c <;> obtain ⟨v, hv, h⟩ := bind_eq_ok.mp h <;> cases h
  case insert batch => exact Or.inr (Or.inl ⟨_, _, hv⟩)
  case remove keys => exact Or.inr (Or.inr ⟨_, _, hv⟩)
  case apply ops =>
    unfold apply at hv
    split at hv
    · cases hv
      exact Or.inl rfl
    · split at hv
      · cases hv
      · exact applyKind_eq_ok hv
  all_goals exact Or.inl rfl

end Call

section Changes

variable {x x' : Index} {t : Table} {row : Nat → List Handle} {height : Nat}
  {events : List Event} (i : x.tree.Intact row height t.items)
include i

theorem insert_extends {batch : List Pair}
    (h : x.insert batch = .ok (x', events)) :
    ∃ row' height',
      x'.tree.Intact row' height' (t.insert batch).items ∧
      x.tree.Extends row height x'.tree row' height' := by
  rcases insert_cases i (minKey_not_mem_of_insert h) with
    ⟨tree, events', row', height', hx, i', hext⟩ | hfull
  · rw [hx] at h
    cases h
    exact ⟨row', height', i', hext⟩
  · rw [hfull] at h
    cases h

theorem remove_thins {keys : List Key}
    (h : x.remove keys = .ok (x', events)) :
    ∃ row', x'.tree.Intact row' height (t.remove keys).items ∧
      x.tree.Thins row x'.tree row' := by
  obtain ⟨tree, events', row', hx, hthin, i'⟩ :=
    remove_eq_ok i (minKey_not_mem_of_remove h)
  rw [hx] at h
  cases h
  exact ⟨row', i', hthin⟩

/-- **What a call does.** The tree grows, or it thins out and keeps its height.
A question is a growth by nothing. -/
theorem call_changes {c : Call} {a : Answer} (h : x.call c = .ok (x', a)) :
    ∃ (t' : Table) (row' : Nat → List Handle) (height' : Nat),
      x'.tree.Intact row' height' t'.items ∧
      (x.tree.Extends row height x'.tree row' height' ∨
        height' = height ∧ x.tree.Thins row x'.tree row') := by
  rcases call_eq_ok h with rfl | ⟨batch, events, h⟩ | ⟨keys, events, h⟩
  · exact ⟨t, row, height, i, Or.inl (.refl _ row height)⟩
  · obtain ⟨row', height', i', hext⟩ := insert_extends i h
    exact ⟨_, row', height', i', Or.inl hext⟩
  · obtain ⟨row', i', hthin⟩ := remove_thins i h
    exact ⟨_, row', height, i', Or.inr ⟨rfl, hthin⟩⟩

end Changes

end Index

end LevelIndex
