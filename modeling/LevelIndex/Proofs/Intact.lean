import LevelIndex.Proofs.Level
import LevelIndex.Tree.Basic

/-!
# Intact trees

An intact tree is a stack of levels from the leaves to its root. `Layers` is the
stack alone, and it may have a gap: while a batch is about to rewrite the level
`gap`, the level below it has been rewritten already, and the separators of
`gap` do not fit it yet. `Intact` has no gap; its leaves hold the sentinel and
the pairs stored, and its top level is the root.

Levels are told apart by the heights of their nodes, and none is empty, so a
tree of height `H` uses at least `H + 1` slots (`Layers.height_lt`). Heights
therefore stay below what a word can hold, whatever the batch, and no step of
the engines has to be followed in order to know it
(`Layers.height_lt_heightLimit`).

A fresh tree has one level, with the sentinel in its only cell (`intact_fresh`).
-/

namespace LevelIndex

/-- The cell in which a leaf stores a pair. -/
def Pair.cell (p : Pair) : Cell := ⟨p.key, .value p.value⟩

/-- The cell of the sentinel. -/
def sentinelCell : Cell := ⟨minKey, .null⟩

/-- What the leaves of a tree that stores `items` hold. -/
def leafCells (items : List Pair) : List Cell :=
  sentinelCell :: items.map Pair.cell

@[simp] theorem childrenOf_leafCells (items : List Pair) :
    childrenOf (leafCells items) = [] := by
  simp [leafCells, childrenOf, sentinelCell, Pair.cell, Entry.child?]

namespace Store

/-- The levels `0` to `height`, each the parents of the one below but for
the level `gap`. -/
structure Layers (s : Store) (row : Nat → List Handle) (height gap : Nat) :
    Prop where
  nameable : s.capacity < Handle.nullRaw
  level : ∀ k ≤ height, s.IsLevel k (row k)
  spans : ∀ k < height, k + 1 ≠ gap → s.Spans (row k) (row (k + 1))

namespace Layers

variable {s s' : Store} {row : Nat → List Handle} {height gap : Nat}

theorem isRow (l : s.Layers row height gap) {k : Nat} (hk : k ≤ height) :
    s.IsRow k (row k) :=
  (l.level k hk).isRow

theorem not_mem_of_ne (l : s.Layers row height gap) {j k : Nat}
    (hj : j ≤ height) (hk : k ≤ height) (hne : j ≠ k) {h : Handle}
    (hh : h ∈ row j) : h ∉ row k :=
  not_mem_row_of_ne (fun _ => l.isRow) hj hk hne hh

/-- Each level has a slot of its own at least: its nodes have one height, and no
other level has nodes of that height. -/
theorem height_lt (l : s.Layers row height gap) : height < s.allocated :=
  height_lt_allocated fun _ => l.isRow

theorem height_lt_nullRaw (l : s.Layers row height gap) :
    height + 1 < Handle.nullRaw := by
  have h₁ := l.height_lt
  have h₂ := s.allocated_le
  have h₃ := l.nameable
  omega

theorem height_lt_heightLimit (l : s.Layers row height gap) :
    height + 1 < heightLimit :=
  l.height_lt_nullRaw

end Layers

end Store

namespace Tree

/-- The tree is in order and stores `items`; its levels are the rows up to
`height`. -/
structure Intact (t : Tree) (row : Nat → List Handle) (height : Nat)
    (items : List Pair) : Prop extends t.store.Layers row height 0 where
  top : row height = [t.root]
  parent_root : (t.store.node t.root).parent = .null
  leaves : t.store.contents (row 0) = leafCells items

namespace Intact

variable {t : Tree} {row : Nat → List Handle} {height : Nat} {items : List Pair}

theorem spans_succ (i : t.Intact row height items) {k : Nat} (hk : k < height) :
    t.store.Spans (row k) (row (k + 1)) := i.spans k hk (Nat.succ_ne_zero k)

theorem root_mem (i : t.Intact row height items) : t.root ∈ row height := by
  simp [i.top]

theorem read_root (i : t.Intact row height items) :
    t.store.read t.root = .ok (t.store.node t.root) :=
  (i.level height (Nat.le_refl _)).read i.root_mem

theorem height_root (i : t.Intact row height items) :
    (t.store.node t.root).height = height :=
  (i.level height (Nat.le_refl _)).height_eq _ i.root_mem

theorem height_eq (i : t.Intact row height items) : t.height = .ok height := by
  rw [Tree.height, i.read_root]
  exact congrArg Except.ok i.height_root

theorem increasing_leafCells (i : t.Intact row height items) :
    Increasing (leafCells items) :=
  i.leaves ▸ (i.level 0 (Nat.zero_le _)).increasing

end Intact

theorem intact_fresh {capacity : Nat} (h : 0 < capacity)
    (hn : capacity < Handle.nullRaw) :
    (fresh capacity h).Intact (fun _ => [.first]) 0 [] := by
  have hnode : (fresh capacity h).store.node .first = sentinelLeaf := rfl
  have hcont : (fresh capacity h).store.contents [.first] = [sentinelCell] :=
    rfl
  refine ⟨⟨hn, ?_, fun k hk => absurd hk (Nat.not_lt_zero k)⟩, rfl, rfl, rfl⟩
  intro k hk
  obtain rfl := Nat.le_zero.mp hk
  refine ⟨?_, ?_, ⟨rfl, trivial⟩, ?_, ?_, ⟨.null, [], rfl⟩, ?_⟩
  · simp [fresh, Handle.first, Store.contains, Store.allocated]
  · simp [hnode, sentinelLeaf]
  · simp [hnode, sentinelLeaf]
  · rw [hcont]
    exact List.pairwise_singleton _ _
  · simp

end Tree

end LevelIndex
