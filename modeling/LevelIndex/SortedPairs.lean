import LevelIndex.Batch.Normal
import LevelIndex.Bisect

/-!
# Sorted pairs

The plainest index there is: one list of pairs, sorted by key, with the sentinel
in front. Every operation looks for a key by bisection. Batches are carried out
one pair after the other, and each pair is written over the one under its key or
put in between its neighbours.

It is meant to be checked against, so it is no more careful than it has to be:
positions are read as they are computed, and a list without its sentinel would
have some of them out of bounds.
-/

namespace LevelIndex

/-- Where the search for a key ends. -/
inductive Slot where
  /-- The key is there. -/
  | taken (position : Nat)
  /-- The key is not there, and this is where it belongs. -/
  | free (position : Nat)
deriving DecidableEq

/-- Looks for a key among keys in order, by bisection. -/
def slotOf (keys : List Key) (key : Key) : Slot :=
  match leadingCount (· ≤ key) keys with
  | 0 => .free 0
  | n + 1 => if keys[n]? = some key then .taken n else .free (n + 1)

def Slot.isFree : Slot → Bool
  | taken _ => false
  | free _ => true

structure SortedPairs where
  entries : List Pair
deriving DecidableEq

namespace SortedPairs

/-- Only the sentinel. -/
def new : SortedPairs := ⟨[.sentinel]⟩

/-- Stores a pair, over a pair with the same key. The sentinel's key is not to be used. -/
def place (s : SortedPairs) (p : Pair) : Option SortedPairs :=
  if p.key = minKey then none
  else
    match slotOf (s.entries.map (·.key)) p.key with
    | .taken i => some ⟨s.entries.modify i fun q => { q with value := p.value }⟩
    | .free i => some ⟨s.entries.insertIdx i p⟩

/-- Stores the pairs one by one. -/
def insert (s : SortedPairs) (batch : List Pair) : Option SortedPairs :=
  batch.foldlM place s

/-- Drops the pairs under these keys, but not the sentinel. -/
def remove (s : SortedPairs) (keys : List Key) : SortedPairs :=
  let doomed := sortedKeys keys
  ⟨s.entries.filter fun p => p.key = minKey || (slotOf doomed p.key).isFree⟩

/-- The greatest pair whose key is not above `key`. -/
def predecessor? (s : SortedPairs) (key : Key) : Option Pair :=
  s.entries[leadingCount (fun p : Pair => p.key ≤ key) s.entries - 1]?

def predecessors (s : SortedPairs) (keys : List Key) : Option (List Pair) :=
  keys.mapM s.predecessor?

/-- The values under exactly these keys. The key of the sentinel has none. -/
def get (s : SortedPairs) (keys : List Key) : Option (List (Option Value)) :=
  keys.mapM fun key => do
    let found ← s.predecessor? key
    return if found.key = key ∧ key ≠ minKey then some found.value else none

/-- The pairs behind the sentinel. -/
def items (s : SortedPairs) : Option (List Pair) := s.entries.tail?

def length (s : SortedPairs) : Option Nat := s.items.map (·.length)

def isEmpty (s : SortedPairs) : Option Bool := s.length.map (· == 0)

end SortedPairs

end LevelIndex
