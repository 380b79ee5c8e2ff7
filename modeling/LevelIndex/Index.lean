import LevelIndex.Batch.Normal
import LevelIndex.Blocks
import LevelIndex.Config
import LevelIndex.Insert.Rewrite
import LevelIndex.Operation
import LevelIndex.Remove.Compact
import LevelIndex.Tree.Check
import LevelIndex.Tree.Search

/-!
# The index

An ordered index over 64-bit keys that is changed and asked in batches.

A batch that changes it is put in normal form, each key is routed to its leaf,
and the edits climb the tree level by level. A batch of questions is cut into
blocks, one for each worker, and answered by searching.

Calls that cannot be carried out at all are rejected, and nothing has changed
then. A fault means that the index itself is damaged. If it occurs on the way
to the leaves, the index is still as it was; if it occurs while edits climb,
the batch is aborted half done and the index must not be used again.
-/

namespace LevelIndex

structure Index where
  config : Config
  tree : Tree
  valid : config.Valid

/-- Why a batch has not been carried out. -/
inductive Failure where
  | rejected (e : Error)
  | fatal (f : Fault)
  /-- A fault while the batch was climbing the tree. -/
  | aborted (f : Fault)
deriving DecidableEq

namespace Index

/-- An index that stores no pair. -/
def ofConfig (config : Config) : Except Error (Index × List Event) :=
  match h : config.defect? with
  | some d => .error d.error
  | none =>
    have valid := Config.defect?_eq_none_iff.mp h
    let event := .indexCreated config.workers config.storeCapacity config.serialHeight
    .ok ({ config, tree := .fresh config.storeCapacity valid.storeCapacity_pos, valid }, [event])

def pool (x : Index) : Pool := .ofRequest x.config.workers x.config.serialHeight

/-! ## Questions -/

/-- The greatest stored pair not above each key, or the sentinel. -/
def predecessor (x : Index) (keys : List Key) : Except Fault (List Pair) :=
  mapBlocks x.config.workers keys fun key => do
    let hit ← x.tree.search key
    hit.cell.pair

/-- The value under exactly each key, if there is one. -/
def get (x : Index) (keys : List Key) : Except Fault (List (Option Value)) :=
  mapBlocks x.config.workers keys fun key => do
    let hit ← x.tree.search key
    return hit.cell.valueAt? key

def containsKey (x : Index) (key : Key) : Except Fault Bool := do
  let values ← x.get [key]
  return values.any (·.isSome)

/-- The leaf responsible for each key. -/
def locate (x : Index) (keys : List Key) : Except Fault (List Handle) :=
  mapBlocks x.config.workers keys fun key => do
    let hit ← x.tree.search key
    return hit.leaf

/-! ## Changes -/

/-- Turns down a batch with the key that belongs to the sentinel. -/
def rejectReserved (operation : String) (keys : List Key) : Except Failure Unit :=
  require (minKey ∉ keys) (.rejected { cause := .reservedKey operation minKey })

/-- Sends the edits of a batch, one for each of the keys, to the leaves of their keys and up the
tree. A batch without keys changes nothing. -/
def climb (x : Index) (engine : Engine Tree) (keys : List Key) (edits : List Handle → List Edit) :
    Except Failure (Index × List Event) :=
  if keys.isEmpty then .ok (x, [])
  else do
    let leaves ← (x.locate keys).mapError .fatal
    let course := engine.run x.pool x.tree (edits leaves)
    let tree ← course.ending.mapError .aborted
    return ({ x with tree }, .leavesLocated keys.length :: course.events engine.name x.pool)

/-- Stores the pairs of a batch; of several pairs with one key the last counts. -/
def insert (x : Index) (batch : List Pair) : Except Failure (Index × List Event) := do
  rejectReserved "insert" (batch.map (·.key))
  let pairs := normalForm batch
  x.climb Insert.engine (pairs.map (·.key)) fun leaves =>
    pairs.zipWith (fun p leaf => .insert p.key (.value p.value) leaf) leaves

/-- Drops the pairs under these keys, where there are any. -/
def remove (x : Index) (keys : List Key) : Except Failure (Index × List Event) := do
  rejectReserved "remove" keys
  let keys := sortedKeys keys
  x.climb Remove.engine keys fun leaves => keys.zipWith Edit.remove leaves

/-- Carries out operations as operations of the kind `kind`. -/
def applyKind (x : Index) (kind : Operation.Kind) (ops : List Operation) :
    Except Failure (Index × BatchOutcome × List Event) :=
  match kind with
  | .get => do
    let values ← (x.get (ops.map (·.key))).mapError .fatal
    return (x, .values values, [])
  | .predecessor => do
    let pairs ← (x.predecessor (ops.map (·.key))).mapError .fatal
    return (x, .predecessors pairs, [])
  | .update | .insert => do
    let (x, events) ← x.insert (ops.filterMap (·.pair?))
    return (x, .applied, events)
  | .remove => do
    let (x, events) ← x.remove (ops.map (·.key))
    return (x, .applied, events)

/-- Carries out operations, provided that they are all of one kind. -/
def apply (x : Index) (ops : List Operation) :
    Except Failure (Index × BatchOutcome × List Event) :=
  match ops with
  | [] => .ok (x, .applied, [])
  | first :: _ =>
    match Operation.firstStranger? first.kind ops with
    | some (position, found) =>
      .error (.rejected { cause := .mixedBatch first.kind.name found.name position })
    | none => x.applyKind first.kind ops

/-- Puts another root in place of the present one. -/
def setRoot (x : Index) (root : Handle) : Index × List Event :=
  ({ x with tree := x.tree.setRoot root }, [.rootGrew x.tree.root root])

/-! ## What is stored -/

def length (x : Index) : Except Fault Nat := x.tree.length

def isEmpty (x : Index) : Except Fault Bool := x.tree.isEmpty

/-- The pairs stored, in key order. -/
def items (x : Index) : Except Fault (List Pair) := x.tree.items

/-- The first damage that the checker finds, as an error; a fault of the checker is left as it
is. -/
def check (x : Index) : Except Fault (Except Error Unit) :=
  match x.tree.check with
  | .ok () => .ok (.ok ())
  | .error (.fault f) => .error f
  | .error (.corrupt c) =>
    let error : Error := { cause := .corruptedTree c.component c.details }
    .ok (.error (error.withContext "BatchTree::check_invariants"))

end Index

end LevelIndex
