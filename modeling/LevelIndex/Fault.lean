import LevelIndex.Edit.Basic
import LevelIndex.Node.Printer

/-!
# Faults

A fault is a broken invariant of the index itself: a handle that names no node,
keys out of order, a separator that is missing, edits that climb past the root.
It is not an answer to a caller, who cannot mend it, and nothing is rolled back
after one. Each constructor is one cause and holds what was found;
`Fault.message` is the wording of all of them.
-/

namespace LevelIndex

inductive Access where
  | read
  | write
deriving DecidableEq

def Access.name : Access → String
  | read => "read"
  | write => "write"

inductive Fault where
  -- nodes and the store
  | overfull (key : Key) (height : Nat)
  | unnameable (index : Nat)
  | storeFull (capacity : Nat)
  | dangling (node : Handle) (allocated : Nat)
  | unordered (access : Access) (handle : Handle) (slot : Nat) (node : Node)
  -- descents and walks
  | noPredecessor (key : Key) (handle : Handle) (node : Node)
  | noChildInSlot (handle : Handle) (slot : Nat) (node : Node)
  | noFirstChild (handle : Handle) (node : Node)
  | noLevel (height rootHeight : Nat)
  | childInLeaf (child : Handle)
  | endlessWalk (start : Handle)
  -- edits
  | notAnEntry (key : Key) (payload : Payload)
  | notAKey (key : Key) (payload : Payload)
  | aboveRoot (engine : String) (count height bound : Nat)
  | outOfOrder (engine : String) (height : Nat) (first second : Edit)
  | noWorker (count index : Nat)
  -- rewriting a level
  | insertHeight (handle : Handle) (expected found : Nat)
  | growth (height : Nat) (root : Handle) (rootHeight : Nat)
  | removeHeight (handle : Handle) (expected found : Nat)
  | missingSeparator (key : Key) (flags : Flags) (handle : Handle) (height : Nat) (node : Node)
  -- compaction
  | unexpectedFlags (flags : Flags) (handle : Handle)
  | unflagged (handle : Handle) (height : Nat) (node : Node)
  | noReuse (height : Nat) (midKey : Key)
  | emptyInside (height : Nat) (tail : Handle)
  | offChain (handle : Handle) (height : Nat)
  -- heights and counts are bounded words
  | heightOverflow
  | countUnderflow
deriving DecidableEq

namespace Fault

def message : Fault → String
  | overfull key height => s!"push of key {key} into a full node at height {height}"
  | unnameable index => s!"arena index {index} does not fit in a node handle"
  | storeFull capacity => s!"node arena exhausted: all {capacity} slots are in use"
  | dangling node allocated => s!"dangling node handle {node} ({allocated} slots allocated)"
  | unordered access handle slot node =>
    let key (i : Nat) := node.keys[i]?.getD minKey
    s!"unordered {access.name} of node {handle} at slot {slot}: "
      ++ s!"{key slot} <= {key (slot - 1)}\n{node.dump}"
  | noPredecessor key handle node => s!"no predecessor for key {key} in node {handle}\n{node.dump}"
  | noChildInSlot handle slot node =>
    s!"inner node {handle} has no child in slot {slot}\n{node.dump}"
  | noFirstChild handle node => s!"inner node {handle} has no first child\n{node.dump}"
  | noLevel height rootHeight => s!"no level {height} below root of height {rootHeight}"
  | childInLeaf child => s!"leaf entry holds child handle {child}"
  | endlessWalk start => s!"the walk from {start} does not end"
  | notAnEntry key payload =>
    s!"staged item for key {key} carries {payload.inspect}, not an entry"
  | notAKey key payload => s!"staged item for key {key} carries {payload.inspect}, not a key"
  | aboveRoot engine count height bound =>
    s!"{engine} staged {count} items above the root (height {height}, bound {bound})"
  | outOfOrder engine height first second =>
    s!"{engine} staged items out of order at height {height}: "
      ++ s!"{first.inspect} then {second.inspect}"
  | noWorker count index => s!"index out of bounds: the len is {count} but the index is {index}"
  | insertHeight handle expected found =>
    s!"insert run for {handle} expected height {expected}, node has height {found}"
  | growth height root rootHeight =>
    s!"root growth to height {height} above root {root} of height {rootHeight}"
  | removeHeight handle expected found =>
    s!"remove run for {handle} expected height {expected}, node has height {found}"
  | missingSeparator key flags handle height node =>
    s!"separator {key} ({flags.inspect}) missing from node {handle} at height {height}\n"
      ++ node.dump
  | unexpectedFlags flags handle =>
    s!"unexpected {flags.inspect} for node {handle} in compaction"
  | unflagged handle height node =>
    s!"unflagged underfull node {handle} at height {height}\n{node.dump}"
  | noReuse height midKey =>
    s!"no node to reuse for upper half at height {height} (mid key {midKey})"
  | emptyInside height tail =>
    s!"empty group at height {height} ends at {tail} before the end of the level"
  | offChain handle height => s!"node {handle} is not on the sibling chain of height {height}"
  | heightOverflow => "attempt to add with overflow"
  | countUnderflow => "attempt to subtract with overflow"

end Fault

/-- The greatest height there is. -/
def heightLimit : Nat := 4294967295

/-- One level up, as far as heights go. -/
def nextHeight (height : Nat) : Except Fault Nat :=
  if height < heightLimit then .ok (height + 1) else .error .heightOverflow

end LevelIndex
