import LevelIndex.Node.Checked

/-!
# The node store

A store reserves a number of slots and hands them out in order, never taking
one back: a node that falls out of a tree keeps its slot. `allocated` counts
the slots handed out; a slot that was not written yet holds a blank node.

Reads and writes copy a node whole and check its key order on the way.
`get?` looks without the check, for callers that report what is wrong instead
of failing. The links of a node can be set alone, which checks no order.
-/

namespace LevelIndex

structure Store where
  /-- The number of slots there are. -/
  capacity : Nat
  /-- The slots handed out so far. -/
  nodes : Array Node
  size_le : nodes.size ≤ capacity

namespace Store

def ofCapacity (capacity : Nat) : Store :=
  { capacity, nodes := #[], size_le := Nat.zero_le _ }

def allocated (s : Store) : Nat := s.nodes.size

/-- The handle addresses a slot that has been handed out. -/
def contains (s : Store) : Handle → Bool
  | .null => false
  | .slot i => i < s.allocated

def get? (s : Store) : Handle → Option Node
  | .null => none
  | .slot i => s.nodes[i]?

/-- The handle of the next unused slot, and the store in which it is handed out. -/
def allocate (s : Store) : Except Fault (Handle × Store) :=
  if h : s.nodes.size < s.capacity then
    match Handle.ofIndex? s.nodes.size with
    | some handle =>
      .ok (handle, { s with
        nodes := s.nodes.push .blank
        size_le := by rw [Array.size_push]; exact h })
    | none => .error (.unnameable s.nodes.size)
  else .error (.storeFull s.capacity)

/-- The node under a handle, unchecked. -/
def fetch (s : Store) (h : Handle) : Except Fault Node :=
  match s.get? h with
  | some n => .ok n
  | none => .error (.dangling h s.allocated)

/-- Puts a node under a handle, unchecked. -/
def replace (s : Store) (h : Handle) (n : Node) : Except Fault Store :=
  match h with
  | .null => .error (.dangling h s.allocated)
  | .slot i =>
    if hi : i < s.nodes.size then
      .ok { s with nodes := s.nodes.set i n hi, size_le := by simpa using s.size_le }
    else .error (.dangling h s.allocated)

def read (s : Store) (h : Handle) : Except Fault Node := do
  let n ← s.fetch h
  n.checkOrder .read h
  return n

/-- Writes a node. Its order is checked before its handle is looked at. -/
def write (s : Store) (h : Handle) (n : Node) : Except Fault Store := do
  n.checkOrder .write h
  s.replace h n

def setParent (s : Store) (h parent : Handle) : Except Fault Store := do
  let n ← s.fetch h
  s.replace h { n with parent }

def setRight (s : Store) (h right : Handle) : Except Fault Store := do
  let n ← s.fetch h
  s.replace h { n with right }

/-- Makes `parent` the owner of each of `children`, in order. -/
def adopt (s : Store) (parent : Handle) (children : List Handle) : Except Fault Store :=
  children.foldlM (fun s child => s.setParent child parent) s

/-- Writes a node and makes it the owner of its children. -/
def commit (s : Store) (h : Handle) (n : Node) : Except Fault Store := do
  let s ← s.write h n
  s.adopt h n.children

end Store

end LevelIndex
