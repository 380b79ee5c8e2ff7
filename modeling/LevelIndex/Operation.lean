import LevelIndex.Pair

/-!
# Operations

An operation is one request with its kind. Requests that arrive mixed are
grouped by kind and applied in batches of one kind; the first operation of
another kind than the first one spoils a batch.
-/

namespace LevelIndex

inductive Operation where
  | get (key : Key)
  | update (pair : Pair)
  | predecessor (key : Key)
  | insert (pair : Pair)
  | remove (key : Key)
deriving DecidableEq

inductive Operation.Kind where
  | get
  | update
  | predecessor
  | insert
  | remove
deriving DecidableEq

/-- The answer to a batch of operations of one kind. -/
inductive BatchOutcome where
  | values (vs : List (Option Value))
  | predecessors (ps : List Pair)
  | applied
deriving DecidableEq

/-- A pair written out whole. -/
def Pair.inspect (p : Pair) : String := s!"KeyValue \x7b key: {p.key}, value: {p.value} \x7d"

namespace Operation

def Kind.name : Kind → String
  | get => "get"
  | update => "update"
  | predecessor => "predecessor"
  | insert => "insert"
  | remove => "remove"

def kind : Operation → Kind
  | get _ => .get
  | update _ => .update
  | predecessor _ => .predecessor
  | insert _ => .insert
  | remove _ => .remove

def key : Operation → Key
  | get k | predecessor k | remove k => k
  | update p | insert p => p.key

/-- The pair to be stored, for the kinds that store one. -/
def pair? : Operation → Option Pair
  | update p | insert p => some p
  | _ => none

/-- `Insert(KeyValue { key: 1, value: -1 })`, `Get(5)`. -/
def inspect : Operation → String
  | get k => s!"Get({k})"
  | update p => s!"Update({p.inspect})"
  | predecessor k => s!"Predecessor({k})"
  | insert p => s!"Insert({p.inspect})"
  | remove k => s!"Remove({k})"

/-- The position and the kind of the first operation that is not of the kind `kind`. -/
def firstStranger? (kind : Kind) (ops : List Operation) : Option (Nat × Kind) :=
  (ops.zipIdx.find? fun (op, _) => op.kind ≠ kind).map fun (op, i) => (i, op.kind)

end Operation

end LevelIndex
