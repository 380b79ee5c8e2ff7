import LevelIndex.Tree.Level

/-!
# The text of a tree

All levels from the root down, and under each its nodes from left to right, one
line a node.
-/

namespace LevelIndex

namespace Tree

def nodeLine (h : Handle) (n : Node) : String :=
  s!"  {h} parent={n.parent} right={n.right} keys={bracketed n.keys}\n"

def levelText (t : Tree) (height : Nat) : Except Fault String := do
  let nodes ← t.levelNodes height
  return s!"level {height}:\n" ++ String.join (nodes.map fun (h, n) => nodeLine h n)

/-- The levels below `count`, the highest first. -/
def textBelow (t : Tree) : Nat → Except Fault String
  | 0 => .ok ""
  | count + 1 => do
    let top ← t.levelText count
    let rest ← t.textBelow count
    return top ++ rest

def dump (t : Tree) : Except Fault String := do
  let height ← t.height
  t.textBelow (height + 1)

end Tree

end LevelIndex
