import LevelIndex.Tree.Basic

/-!
# Searching

A search goes down from the root. At every node it follows the slot of the
greatest key not above the query, until it stands in a leaf, where that slot is
its answer. The sentinel on the leftmost path is what makes such a slot exist
on every node of an intact tree.

In an intact tree a path is no longer than the tree is high. The store may hold
anything, though, and a path that visits more nodes than there are has come
back to one of them, so it would go on for ever; it is cut off there.
-/

namespace LevelIndex

/-- Where a search ended, and the cell it found. -/
structure SearchHit where
  leaf : Handle
  cell : Cell
deriving DecidableEq

namespace Tree

/-- Goes down from the node `h`, through at most `steps` nodes. -/
def descend (t : Tree) (key : Key) : Nat → Handle → Except Fault SearchHit
  | 0, h => .error (.endlessWalk h)
  | steps + 1, h => do
    let node ← t.store.read h
    match node.predecessorSlot? key with
    | none => .error (.noPredecessor key h node)
    | some slot =>
      let cell := node.cells[slot]
      if node.isLeaf then .ok ⟨h, cell⟩
      else
        match cell.entry with
        | .child child => t.descend key steps child
        | _ => .error (.noChildInSlot h slot node)

/-- The leaf responsible for `key`, with the greatest key there that is not above it. -/
def search (t : Tree) (key : Key) : Except Fault SearchHit :=
  t.descend key (t.store.allocated + 1) t.root

end Tree

end LevelIndex
