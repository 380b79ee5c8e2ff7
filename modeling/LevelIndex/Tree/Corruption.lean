import LevelIndex.Node.Printer

/-!
# Corruption

What the checker can find wrong with a tree. Each finding belongs to a
component of the structure and says which node shows it; `Corruption.details`
is the wording.
-/

namespace LevelIndex

inductive Corruption where
  | rootHasParent (root parent : Handle)
  | notAllocated (handle : Handle)
  | emptyNode (handle : Handle) (height : Nat)
  | notIncreasing (handle : Handle) (slot : Nat) (keys : List Key)
  | beyondSeparator (handle : Handle) (key upper : Key)
  | notAChild (handle : Handle) (slot : Nat) (entry : Entry)
  | childHeight (child parent : Handle) (found expected : Nat)
  | childParent (child parent found : Handle)
  | wrongSeparator (handle : Handle) (slot : Nat) (separator : Key) (child : Handle) (first : Key)
  | badLeafCell (handle : Handle) (slot : Nat) (cell : Cell)
  | wrongNeighbour (handle : Handle) (height : Nat) (found expected : Handle)
  | openEnd (handle : Handle) (height : Nat) (right : Handle)
deriving DecidableEq

namespace Corruption

/-- The part of the structure that is damaged. -/
def component : Corruption → String
  | rootHasParent .. => "Root"
  | notAllocated .. => "Handle"
  | emptyNode .. => "Node"
  | notIncreasing .. => "Order"
  | beyondSeparator .. | wrongSeparator .. => "Separator"
  | notAChild .. => "Entry"
  | childHeight .. => "Height"
  | childParent .. => "Parent"
  | badLeafCell .. => "Leaf"
  | wrongNeighbour .. | openEnd .. => "Sibling chain"

def details : Corruption → String
  | rootHasParent root parent => s!"root {root} has parent {parent}"
  | notAllocated handle => s!"{handle} is not an allocated node"
  | emptyNode handle height => s!"{handle} at height {height} is empty"
  | notIncreasing handle slot keys =>
    s!"{handle} keys not increasing at slot {slot}: {bracketed keys}"
  | beyondSeparator handle key upper =>
    s!"{handle} holds key {key} at or above next separator {upper}"
  | notAChild handle slot entry =>
    s!"{handle} slot {slot} holds {entry.inspect} instead of a child"
  | childHeight child parent found expected =>
    s!"child {child} of {parent} has height {found}, expected {expected}"
  | childParent child parent found => s!"child {child} of {parent} points at parent {found}"
  | wrongSeparator handle slot separator child first =>
    s!"{handle} slot {slot} has separator {separator} but child {child} starts at {first}"
  | badLeafCell handle slot cell =>
    s!"{handle} slot {slot} holds {cell.entry.inspect} under key {cell.key}"
  | wrongNeighbour handle height found expected =>
    s!"{handle} at height {height} points right at {found}, expected {expected}"
  | openEnd handle height right =>
    s!"rightmost node {handle} at height {height} points right at {right}"

end Corruption

end LevelIndex
