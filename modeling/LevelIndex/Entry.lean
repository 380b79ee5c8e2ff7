import LevelIndex.Handle
import LevelIndex.Pair

/-!
# Entries and cells

Leaves and inner nodes share one layout. What a node stores under a key is an
*entry*: a value in a leaf, a child's handle in an inner node, or nothing at
all, which is how the sentinel is stored. A *cell* is a key with its entry.
-/

namespace LevelIndex

/-- What is stored under one key of a node. -/
inductive Entry where
  | null
  | value (v : Value)
  | child (node : Handle)
deriving DecidableEq

namespace Entry

def child? : Entry → Option Handle
  | child h => some h
  | _ => none

/-- `Null`, `Value(5)` or `Child(NodeId(4))`. -/
def inspect : Entry → String
  | null => "Null"
  | value v => s!"Value({v})"
  | child h => s!"Child({h.inspect})"

@[simp] theorem child?_eq_some_iff {e : Entry} {h : Handle} :
    e.child? = some h ↔ e = child h := by
  cases e <;> simp [child?]

end Entry

/-- A key of a node with the entry stored under it. -/
structure Cell where
  key : Key
  entry : Entry
deriving DecidableEq

end LevelIndex
