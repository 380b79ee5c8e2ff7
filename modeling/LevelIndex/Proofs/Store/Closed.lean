import LevelIndex.Proofs.Level

/-!
# Stores without dangling handles

A store is closed if every handle in a node is null or that of a slot in use.
This is said of all nodes, also of those that have fallen out of their tree:
these keep the handles they had, and no slot is ever given back.

A batch rewrites a level at a time, and `Closed.of_level` is what keeps a store
closed then: the nodes of the level refer to each other and to the level below,
and the nodes below to their new owners.
-/

namespace LevelIndex

namespace Store

variable {s s' : Store} {row : List Handle} {h k : Handle}

/-- The handle is null, or its slot is in use. -/
def Knows (s : Store) (h : Handle) : Prop := h = .null ∨ s.contains h = true

structure Closed (s : Store) : Prop where
  parent : ∀ k, s.Knows (s.node k).parent
  right : ∀ k, s.Knows (s.node k).right
  children : ∀ k, ∀ c ∈ (s.node k).children, s.contains c = true

theorem Knows.mono (hk : s.Knows h) (ha : s.allocated ≤ s'.allocated) :
    s'.Knows h :=
  hk.imp_right (contains_of_allocated_le ha)

theorem node_eq_blank (hk : s.contains k = false) : s.node k = .blank := by
  cases hn : s.get? k with
  | none => rw [node, hn, Option.getD_none]
  | some n =>
      rw [contains_iff.mpr ⟨n, hn⟩] at hk
      cases hk

theorem Linked.right_mem (hl : s.Linked .null row) (hk : k ∈ row) :
    (s.node k).right = .null ∨ (s.node k).right ∈ row := by
  induction row with
  | nil => cases hk
  | cons h row ih =>
      rcases List.mem_cons.mp hk with rfl | hk
      · rw [hl.1]
        cases row with
        | nil => exact Or.inl rfl
        | cons p row => exact Or.inr (by simp)
      · exact (ih hl.2 hk).imp_right (List.mem_cons_of_mem _)

namespace Closed

/-- Rewriting a level keeps a store closed. -/
theorem of_level {height : Nat} {w a : List Handle} (hc : s.Closed)
    (f : Frame s s' w a) (hl : s'.IsLevel height row)
    (hw : ∀ k, s'.contains k = true → k ∈ w ∨ s.contains k = false → k ∈ row)
    (ha : a ⊆ childrenOf (s'.contents row))
    (hlive : ∀ c ∈ childrenOf (s'.contents row), s'.contains c = true)
    (howns : ∀ p ∈ row, ∀ c ∈ (s'.node p).children, (s'.node c).parent = p)
    (hparent : ∀ k ∈ row, s.contains k = false →
      s'.Knows (s'.node k).parent) : s'.Closed := by
  have hblank : ∀ k, s'.contains k = false → s'.node k = .blank :=
    fun k => node_eq_blank
  have hkept : ∀ k, s'.contains k = true → k ∉ row →
      (s'.node k).body = (s.node k).body := by
    intro k hk hrow
    have hold := mt (hw k hk) hrow
    rw [not_or, Bool.not_eq_false] at hold
    exact f.body k hold.2 hold.1
  refine ⟨fun k => ?_, fun k => ?_, fun k c hck => ?_⟩
  · cases hk : s'.contains k with
    | false => exact Or.inl (by rw [hblank k hk]; rfl)
    | true =>
        by_cases hka : k ∈ a
        · obtain ⟨p, hp, hkp⟩ := mem_childrenOf_contents.mp (ha hka)
          exact Or.inr (howns p hp k hkp ▸ hl.live p hp)
        · cases hold : s.contains k with
          | false => exact hparent k (hw k hk (Or.inr hold)) hold
          | true =>
              rw [f.parent k hold hka]
              exact (hc.parent k).mono f.allocated
  · cases hk : s'.contains k with
    | false => exact Or.inl (by rw [hblank k hk]; rfl)
    | true =>
        by_cases hrow : k ∈ row
        · exact (hl.linked.right_mem hrow).imp_right (hl.live _)
        · rw [Node.right_eq_of_body_eq (hkept k hk hrow)]
          exact (hc.right k).mono f.allocated
  · cases hk : s'.contains k with
    | false =>
        rw [hblank k hk] at hck
        cases hck
    | true =>
        by_cases hrow : k ∈ row
        · exact hlive c (mem_childrenOf_contents.mpr ⟨k, hrow, hck⟩)
        · rw [Node.children_eq, Node.cells_eq_of_body_eq (hkept k hk hrow)]
            at hck
          exact f.contains (hc.children k c hck)

end Closed

end Store

end LevelIndex
