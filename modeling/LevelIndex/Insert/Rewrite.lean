import LevelIndex.Batch.Engine
import LevelIndex.Edit.Payload
import LevelIndex.Insert.Chunks
import LevelIndex.Node.Merge
import LevelIndex.Tree.Basic

/-!
# Inserting into a level

A run of edits is merged into the cells of the node it is aimed at, and the
result is cut into chunks. The first chunk goes back into the node's own slot;
each further one gets a slot of its own, is linked to the right of the one
before, and is staged for the parent as a new cell: its first key with its
handle.

Edits that are aimed at null come from a split of the root. They are merged
into a new root, one level up, which starts with the old root as its only
child.
-/

namespace LevelIndex

namespace Insert

/-- The new root at the height `height`, its handle, and the tree in which it is the root; it has
not been written yet. -/
def grow (t : Tree) (height : Nat) : Except Fault (Handle × Node × Tree) := do
  let old ← t.store.read t.root
  let above ← nextHeight old.height
  require (above = height) (.growth height t.root old.height)
  let (handle, store) ← t.store.allocate
  let root : Node :=
    { height, parent := .null, right := .null, cells := [⟨minKey, .child t.root⟩],
      length_le := by simp [Node.capacity] }
  return (handle, root, { store, root := handle })

/-- The node that a run is aimed at, with its handle; aimed at null, the tree grows. -/
def base (t : Tree) (height : Nat) (target : Handle) : Except Fault (Handle × Node × Tree) :=
  if target.isNull then grow t height
  else do
    let node ← t.store.read target
    return (target, node, t)

/-- Lays chunks out as nodes, the first under `current` and the others in new slots. The nodes take
their height and parent from `like`, and the last is linked to its right neighbour. -/
def lay (t : Tree) (like : Node) (current : Handle) :
    List (List Cell) → Except Fault (Tree × List Edit)
  | [] => .ok (t, [])
  | [last] => do
    let node ← Node.ofCells like.height like.parent like.right last
    let t ← t.commit current node
    return (t, [])
  | chunk :: next :: rest => do
    let (handle, store) ← t.store.allocate
    let node ← Node.ofCells like.height like.parent handle chunk
    let store ← store.commit current node
    let (t, staged) ← lay { store, root := t.root } like handle (next :: rest)
    let first := (next.head?.map (·.key)).getD minKey
    return (t, .insert first (.child handle) like.parent :: staged)

/-- The cells that edits carry. -/
def cellsOf (run : List Edit) : Except Fault (List Cell) :=
  run.mapM fun e => do return ⟨e.key, ← e.entry⟩

/-- Merges one run into the node it is aimed at. -/
def rewrite (height : Nat) (t : Tree) (run : List Edit) : Except Fault (Step Tree) := do
  let target := (run.head?.map (·.target)).getD .null
  let before := t.root
  let (handle, node, t) ← base t height target
  require (node.height = height) (.insertHeight handle height node.height)
  let cells ← cellsOf run
  let merged := mergeCells node.cells cells
  let grown := if target.isNull then [Event.rootGrew before handle] else []
  let (t, staged) ← lay t node handle (chunks merged)
  return {
    state := t
    staged
    events := grown ++ [.insertRewrite handle height run.length merged.length] }

/-- The engine that inserts. Its edits may climb one level above the root, since the root may
split. -/
def engine : Engine Tree where
  name := "insert"
  bound t := do nextHeight (← t.height)
  execute t height edits := Step.sequence (rewrite height) t (Edit.runs edits)

end Insert

end LevelIndex
