import LevelIndex.Tree.Level

/-!
# The shape of a tree

The shape shows a tree without the slots its nodes happen to live in. Nodes are
given level by level, leaves first, and every link to a parent or a child is a
position in the level above or below. Two trees of one shape differ at most in
where their nodes are stored.
-/

namespace LevelIndex

/-- Where a link leads, as a place in the level that it should lead to. -/
inductive Position where
  /-- The link is null. -/
  | null
  | at (index : Nat)
  /-- Not in the level where it belongs. -/
  | elsewhere
deriving DecidableEq

/-- The position in a level that a link leads to. A link that is null leads nowhere, up to a parent
as well as down to a child. -/
def Position.ofLink (level : List Handle) (h : Handle) : Position :=
  if h.isNull then null
  else
    match level.idxOf? h with
    | some i => .at i
    | none => elsewhere

@[simp] theorem Position.ofLink_null (level : List Handle) : ofLink level .null = null := rfl

/-- What a cell holds: its entry, or the position of the child it refers to. -/
inductive Item where
  | entry (e : Entry)
  | child (p : Position)
deriving DecidableEq

structure NodeShape where
  parent : Position
  keys : List Key
  items : List Item
deriving DecidableEq

/-- The item of an entry in a node above the level `below`, or in a leaf. -/
def Item.of (below : Option (List Handle)) (e : Entry) : Item :=
  match below, e with
  | some level, .child h => .child (.ofLink level h)
  | _, e => .entry e

def NodeShape.of (below : Option (List Handle)) (above : List Handle) (n : Node) : NodeShape where
  parent := .ofLink above n.parent
  keys := n.keys
  items := n.cells.map fun c => .of below c.entry

/-- The shapes of the levels from one on upwards, given the level below it. -/
def shapesAbove : Option (List Handle) → List (List (Handle × Node)) → List (List NodeShape)
  | _, [] => []
  | below, level :: rest =>
    let above := (rest.head?.getD []).map (·.1)
    level.map (fun (_, n) => .of below above n) :: shapesAbove (some (level.map (·.1))) rest

/-- The shape of the tree, leaves first. -/
def Tree.shape (t : Tree) : Except Fault (List (List NodeShape)) := do
  let height ← t.height
  let levels ← overHeights t.levelNodes (height + 1) 0
  return shapesAbove none levels

end LevelIndex
