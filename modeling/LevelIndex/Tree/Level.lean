import LevelIndex.Report
import LevelIndex.Tree.Basic

/-!
# Levels

The nodes of one height form a level. Its leftmost node is reached from the
root along first children, and the others follow by their links to the right.
What the tree stores is what the leaf level holds, from left to right, without
the sentinel.

Like a search, a walk that visits more nodes than there are is cut off.
-/

namespace LevelIndex

/-- The results of `f` at `count` heights from `height` upwards, up to the first fault. -/
def overHeights {ε α : Type} (f : Nat → Except ε α) : (count height : Nat) → Except ε (List α)
  | 0, _ => .ok []
  | count + 1, height => do
    let a ← f height
    let as ← overHeights f count (height + 1)
    return a :: as

namespace Tree

/-- Follows first children from the node `h` to the height `height`, through at most
`steps` nodes. -/
def leftmostFrom (t : Tree) (height : Nat) : Nat → Handle → Except Fault Handle
  | 0, h => .error (.endlessWalk h)
  | steps + 1, h => do
    let node ← t.store.read h
    if node.height = height then .ok h
    else if node.height < height then do
      let rootHeight ← t.height
      .error (.noLevel height rootHeight)
    else
      match node.cells.head?.bind (·.entry.child?) with
      | some child => t.leftmostFrom height steps child
      | none => .error (.noFirstChild h node)

/-- The leftmost node of the height `height`. -/
def leftmostAt (t : Tree) (height : Nat) : Except Fault Handle :=
  t.leftmostFrom height (t.store.allocated + 1) t.root

/-- The nodes from `h` on to the right, at most `steps` of them. -/
def chain (s : Store) : Nat → Handle → Except Fault (List (Handle × Node))
  | _, .null => .ok []
  | 0, h => .error (.endlessWalk h)
  | steps + 1, h => do
    let node ← s.read h
    let rest ← chain s steps node.right
    return (h, node) :: rest

/-- The nodes of a level with their handles, from left to right. -/
def levelNodes (t : Tree) (height : Nat) : Except Fault (List (Handle × Node)) := do
  let leftmost ← t.leftmostAt height
  chain t.store (t.store.allocated + 1) leftmost

/-- The handles of a level, from left to right. -/
def level (t : Tree) (height : Nat) : Except Fault (List Handle) := do
  let nodes ← t.levelNodes height
  return nodes.map (·.1)

/-- The number of pairs stored: all cells of the leaves but the sentinel's. -/
def length (t : Tree) : Except Fault Nat := do
  let leaves ← t.levelNodes 0
  match leaves.foldr (fun (_, n) total => n.size + total) 0 with
  | 0 => .error .countUnderflow
  | n + 1 => return n

def isEmpty (t : Tree) : Except Fault Bool := do
  let n ← t.length
  return n == 0

/-- The pairs stored, in key order. -/
def items (t : Tree) : Except Fault (List Pair) := do
  let leaves ← t.levelNodes 0
  let pairs ← (leaves.flatMap fun (_, n) => n.cells).mapM Cell.pair
  return pairs.filter (· ≠ .sentinel)

/-- The numbers of nodes on the levels, leaves first. -/
def levelSizes (t : Tree) : Except Fault (List Nat) := do
  let height ← t.height
  overHeights (fun h => List.length <$> t.level h) (height + 1) 0

/-- The size of a tree at one point in time. -/
structure Stats where
  height : Nat
  levelSizes : List Nat
  allocated : Nat
  capacity : Nat

/-- The nodes that belong to the tree. -/
def Stats.reachable (st : Stats) : Nat := st.levelSizes.foldr (· + ·) 0

/-- The slots in use that no longer belong to the tree. -/
def Stats.orphaned (st : Stats) : Except Fault Nat :=
  if st.reachable ≤ st.allocated then .ok (st.allocated - st.reachable)
  else .error .countUnderflow

def stats (t : Tree) : Except Fault Stats := do
  let height ← t.height
  let levelSizes ← t.levelSizes
  return { height, levelSizes, allocated := t.store.allocated, capacity := t.store.capacity }

end Tree

end LevelIndex
