import LevelIndex.Store.Basic

/-!
# Trees

A tree is a store together with the handle of its root. A fresh tree is one
leaf in the first slot that holds nothing but the sentinel. The root handle
changes only when the tree grows by a level; no operation takes it back.
-/

namespace LevelIndex

structure Tree where
  store : Store
  root : Handle

/-- The only leaf of a fresh tree. -/
def sentinelLeaf : Node :=
  { height := 0, parent := .null, right := .null, cells := [⟨minKey, .null⟩] }

namespace Tree

/-- The tree that stores no pair, in a store with room for at least its root. -/
def fresh (capacity : Nat) (h : 0 < capacity) : Tree where
  store := { capacity, nodes := #[sentinelLeaf], size_le := h }
  root := .first

def height (t : Tree) : Except Fault Nat := do
  let root ← t.store.read t.root
  return root.height

def setRoot (t : Tree) (root : Handle) : Tree := { t with root }

def parentOf (t : Tree) (h : Handle) : Except Fault Handle := do
  let n ← t.store.read h
  return n.parent

/-- Writes a node and makes it the owner of its children. -/
def commit (t : Tree) (h : Handle) (n : Node) : Except Fault Tree := do
  let ⟨store, root⟩ := t
  let store ← store.commit h n
  return ⟨store, root⟩

@[simp] theorem store_setRoot (t : Tree) (root : Handle) : (t.setRoot root).store = t.store := rfl

@[simp] theorem root_setRoot (t : Tree) (root : Handle) : (t.setRoot root).root = root := rfl

theorem parentOf_eq_ok {t : Tree} {h : Handle} {n : Node} (hr : t.store.read h = .ok n) :
    t.parentOf h = .ok n.parent := by
  rw [parentOf, hr]
  rfl

theorem commit_eq_ok {t : Tree} {h : Handle} {n : Node} {s : Store}
    (hc : t.store.commit h n = .ok s) : t.commit h n = .ok ⟨s, t.root⟩ := by
  show (t.store.commit h n >>= fun s => _) = _
  rw [hc]
  rfl

end Tree

end LevelIndex
