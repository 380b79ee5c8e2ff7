import LevelIndex.Ascending
import LevelIndex.Bisect
import LevelIndex.Entry

/-!
# Nodes

A node is a record of at most sixteen cells in key order, with its height
(leaves are at height 0), the handle of its parent and the handle of its right
neighbour on the same level. That a node is not overfull is part of its type;
that its keys increase is not, since a store can be handed any cells, and is
checked when a node is read or written.

Nodes are never edited in place: an engine reads one, builds another and
writes it back whole.
-/

namespace LevelIndex

/-- The most cells a node holds. -/
def Node.capacity : Nat := 16

/-- A node left with fewer cells than this by a removal is underfull. -/
def Node.half : Nat := Node.capacity / 2

structure Node where
  /-- The distance from the leaves. -/
  height : Nat
  /-- The owner, one level up. -/
  parent : Handle
  /-- The next node of the level, in key order. -/
  right : Handle
  cells : List Cell
  length_le : cells.length ≤ Node.capacity := by decide
deriving DecidableEq

namespace Node

def empty (height : Nat) (parent right : Handle) : Node :=
  { height, parent, right, cells := [] }

/-- What a slot holds before it is first written. -/
def blank : Node := empty 0 .null .null

def size (n : Node) : Nat := n.cells.length

def isEmpty (n : Node) : Bool := n.cells.isEmpty

def isLeaf (n : Node) : Bool := n.height == 0

def keys (n : Node) : List Key := n.cells.map (·.key)

/-- The first key; a node without cells counts as starting at the least key. -/
def firstKey (n : Node) : Key := n.keys.head?.getD minKey

def lastKey? (n : Node) : Option Key := n.keys.getLast?

/-- The child handles among the entries, in order. -/
def children (n : Node) : List Handle := n.cells.filterMap (·.entry.child?)

def underfull (n : Node) : Bool := n.size < half

/-- The slot of the first key that does not exceed the key before it. -/
def unsortedAt? (n : Node) : Option Nat := firstDescent? n.keys

/-- The slot of the greatest key not above `key`, by bisection. -/
def predecessorSlot? (n : Node) (key : Key) : Option (Fin n.cells.length) :=
  match h : leadingCount (fun c : Cell => c.key ≤ key) n.cells with
  | 0 => none
  | slot + 1 => some ⟨slot, Nat.lt_of_succ_le (h ▸ leadingCount_le _ n.cells)⟩

theorem size_le (n : Node) : n.size ≤ capacity := n.length_le

theorem unsortedAt?_eq_none_iff {n : Node} : n.unsortedAt? = none ↔ Ascending n.keys :=
  firstDescent?_eq_none_iff

theorem isEmpty_iff {n : Node} : n.isEmpty = true ↔ n.cells = [] := by simp [isEmpty]

end Node

end LevelIndex
