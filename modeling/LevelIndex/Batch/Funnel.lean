import LevelIndex.Batch.Engine

/-!
# The funnel

The simplest engine there is: it keeps no tree. It notes every edit it is given
and sends it on to the node of half the number, until it arrives at number
zero. Its course shows how a pool shares the levels of a batch and hands them
on, and by sending edits on in reverse it can be made to break their order.
-/

namespace LevelIndex

namespace Funnel

/-- An edit met by the funnel. -/
structure Sighting where
  height : Nat
  key : Key
  target : Nat
deriving DecidableEq

/-- Sightings by height, then key, then target. -/
def Sighting.le (a b : Sighting) : Bool :=
  if a.height ≠ b.height then a.height < b.height
  else if a.key ≠ b.key then a.key < b.key
  else a.target ≤ b.target

def onward (edit : Edit) : Option Edit :=
  if edit.target.raw = 0 then none
  else some (.remove edit.key (.ofRaw (edit.target.raw / 2)))

/-- The funnel that ends at the height `bound`. -/
def engine (bound : Nat) (reverse : Bool) : Engine (List Sighting) where
  name := "funnel"
  bound _ := .ok bound
  execute seen height edits :=
    let staged := edits.filterMap onward
    .ok {
      state := seen ++ edits.map fun e => ⟨height, e.key, e.target.raw⟩
      staged := if reverse then staged.reverse else staged
      events := [] }

/-- The course of the funnel on a batch. -/
def run (pool : Pool) (bound : Nat) (reverse : Bool) (edits : List Edit) :
    Course (List Sighting) :=
  (engine bound reverse).run pool [] edits

/-- All sightings in order. -/
def sorted (seen : List Sighting) : List Sighting := seen.mergeSort Sighting.le

end Funnel

end LevelIndex
