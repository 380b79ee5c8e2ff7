import LevelIndex.Require
import LevelIndex.Tree.Corruption
import LevelIndex.Tree.Level

/-!
# The invariant checker

`Tree.check` goes over a whole tree and reports the first thing that is wrong
with it. It reads nodes without the order check, so that it can look at trees
on which every other operation would fail.

It goes down from the root first. Each node has to have cells in increasing
order and below the separator that follows it in its parent; a leaf has to hold
values, and the sentinel's empty entry under the least key only; an inner node
has to hold children that are one level lower, name it as their parent and
start at their separators. Then it compares the chain of right links on each
level with the nodes that the descent met there.

A descent goes one level down at every step, so it ends on any store. The
height above the greatest height does not exist, and a child that claims the
greatest height is a fault rather than a finding.
-/

namespace LevelIndex

/-- Why a check did not pass. -/
inductive Flaw where
  | corrupt (c : Corruption)
  | fault (f : Fault)
deriving DecidableEq

/-- A node met by the descent. -/
structure Visit where
  height : Nat
  handle : Handle

namespace Check

def load (s : Store) (h : Handle) : Except Flaw Node :=
  match s.get? h with
  | some n => .ok n
  | none => .error (.corrupt (.notAllocated h))

/-- What every node has to satisfy; `upper` is the separator that follows it, if any. -/
def node (h : Handle) (n : Node) (upper : Option Key) : Except Flaw Unit :=
  match n.lastKey? with
  | none => .error (.corrupt (.emptyNode h n.height))
  | some last =>
    match n.unsortedAt?, upper with
    | some slot, _ => .error (.corrupt (.notIncreasing h slot n.keys))
    | none, none => .ok ()
    | none, some upper => require (last < upper) (.corrupt (.beyondSeparator h last upper))

/-- A leaf holds values, and nothing under the least key. -/
def leafCellOk (c : Cell) : Bool :=
  match c.entry with
  | .value _ => c.key ≠ minKey
  | .null => c.key = minKey
  | .child _ => false

def leafCells (h : Handle) : Nat → List Cell → Except Flaw Unit
  | _, [] => .ok ()
  | slot, c :: cells =>
    if leafCellOk c then leafCells h (slot + 1) cells
    else .error (.corrupt (.badLeafCell h slot c))

/-- What a node has to be as the child under `separator` in slot `slot` of the node `h`, which is
at height `height + 1`. -/
def child (h : Handle) (height slot : Nat) (separator : Key) (c : Handle) (n : Node) :
    Except Flaw Unit := do
  require (n.height ≠ heightLimit) (.fault .heightOverflow)
  require (n.height = height) (.corrupt (.childHeight c h n.height height))
  require (n.parent = h) (.corrupt (.childParent c h n.parent))
  require (n.cells = [] ∨ n.firstKey = separator)
    (.corrupt (.wrongSeparator h slot separator c n.firstKey))

/-- Checks the cells of an inner node from slot `slot` on, and under each of them the subtree by
`below`. -/
def innerCells (s : Store) (below : Handle → Node → Option Key → Except Flaw (List Visit))
    (h : Handle) (height : Nat) (upper : Option Key) : Nat → List Cell → Except Flaw (List Visit)
  | _, [] => .ok []
  | slot, cell :: cells => do
    match cell.entry with
    | .child c =>
      let n ← load s c
      child h height slot cell.key c n
      let visits ← below c n ((cells.head?.map (·.key)).or upper)
      let more ← innerCells s below h height upper (slot + 1) cells
      return visits ++ more
    | e => .error (.corrupt (.notAChild h slot e))

/-- Checks the subtree of the node `h`, which is `n` and stands at the given height, and lists the
nodes in it, each before those under it. -/
def subtree (s : Store) : Nat → Handle → Node → Option Key → Except Flaw (List Visit)
  | 0, h, n, upper => do
    node h n upper
    leafCells h 0 n.cells
    return [⟨0, h⟩]
  | height + 1, h, n, upper => do
    node h n upper
    let visits ← innerCells s (subtree s height) h height upper 0 n.cells
    return ⟨height + 1, h⟩ :: visits

/-- The right links from one node of a level to the next, and from the last to null. -/
def chain (s : Store) (height : Nat) : List Handle → Except Flaw Unit
  | [] => .ok ()
  | h :: rest => do
    let n ← load s h
    match rest.head? with
    | some next => require (n.right = next) (.corrupt (.wrongNeighbour h height n.right next))
    | none => require (n.right = .null) (.corrupt (.openEnd h height n.right))
    chain s height rest

/-- The chains of `count` levels from `height` upwards. -/
def chains (s : Store) (visits : List Visit) : (count height : Nat) → Except Flaw Unit
  | 0, _ => .ok ()
  | count + 1, height => do
    chain s height ((visits.filter (·.height = height)).map (·.handle))
    chains s visits count (height + 1)

end Check

namespace Tree

/-- Passes a tree that is intact. -/
def check (t : Tree) : Except Flaw Unit := do
  let root ← Check.load t.store t.root
  require (root.parent = .null) (.corrupt (.rootHasParent t.root root.parent))
  let visits ← Check.subtree t.store root.height t.root root none
  Check.chains t.store visits (root.height + 1) 0

/-- The nodes of a level that are too small or too large: neither the root nor the rightmost node
of its level has to be half full. -/
def occupancyViolationsAt (t : Tree) (height : Nat) : Except Fault (List Handle) := do
  let nodes ← t.levelNodes height
  let bad := nodes.dropLast.filter fun (h, n) =>
    h ≠ t.root && !(Node.half ≤ n.size && n.size ≤ Node.capacity)
  return bad.map (·.1)

def occupancyViolations (t : Tree) : Except Fault (List Handle) := do
  let height ← t.height
  let levels ← overHeights t.occupancyViolationsAt (height + 1) 0
  return levels.flatten

end Tree

end LevelIndex
