import LevelIndex.Entry

/-!
# Edits

An edit says what is to happen to one key of one node. A batch starts as edits
of leaves, and rewriting a level yields the edits of the level above it; edits
never outlive their batch.

The flags say what an edit asks for. An edit without flags merges an entry into
its target. An edit flagged `remove` drops its key, one flagged `changeKey`
puts another key in its place. A node that a removal has left underfull, or
starting at another key, is itself reported as an edit, flagged for the
compaction of its level.
-/

namespace LevelIndex

/-- What an edit asks of its target; any combination may be set. -/
structure Flags where
  remove : Bool := false
  changeKey : Bool := false
  underflow : Bool := false
deriving DecidableEq

namespace Flags

def none : Flags := {}

def isEmpty (f : Flags) : Bool := !f.remove && !f.changeKey && !f.underflow

instance : Union Flags where
  union f g :=
    { remove := f.remove || g.remove
      changeKey := f.changeKey || g.changeKey
      underflow := f.underflow || g.underflow }

/-- The names of the flags that are set, always in this order. -/
def names (f : Flags) : List String :=
  (if f.remove then ["REMOVE"] else [])
    ++ (if f.changeKey then ["CHANGE_KEY"] else [])
    ++ (if f.underflow then ["UNDERFLOW"] else [])

/-- `ModKind(CHANGE_KEY|UNDERFLOW)`, or `ModKind(NONE)`. -/
def inspect (f : Flags) : String :=
  let names := if f.isEmpty then "NONE" else "|".intercalate f.names
  s!"ModKind({names})"

theorem isEmpty_iff {f : Flags} : f.isEmpty = true ↔ f = none := by
  rcases f with ⟨_ | _, _ | _, _ | _⟩ <;> decide

theorem names_eq_nil_iff {f : Flags} : f.names = [] ↔ f = none := by
  rcases f with ⟨_ | _, _ | _, _ | _⟩ <;> decide

theorem union_comm (f g : Flags) : f ∪ g = g ∪ f := by
  simp [Union.union, Bool.or_comm]

end Flags

/-- What an edit carries besides the key it concerns. -/
inductive Payload where
  /-- The entry to merge under the key. -/
  | entry (e : Entry)
  /-- The key to put in place of the edit's key. -/
  | key (k : Key)
  | empty
deriving DecidableEq

/-- `Entry(Value(5))`, `Key(5)` or `Empty`. -/
def Payload.inspect : Payload → String
  | entry e => s!"Entry({e.inspect})"
  | key k => s!"Key({k})"
  | empty => "Empty"

/-- A pending change of one key of one node. -/
structure Edit where
  key : Key
  payload : Payload
  target : Handle
  flags : Flags
deriving DecidableEq

namespace Edit

/-- Merge `e` under `key` into `target`. -/
def insert (key : Key) (e : Entry) (target : Handle) : Edit :=
  { key, payload := .entry e, target, flags := .none }

/-- Drop `key` from `target`. -/
def remove (key : Key) (target : Handle) : Edit :=
  { key, payload := .empty, target, flags := { remove := true } }

/-- Put `newKey` in the place of `key` in `target`. -/
def changeKey (key newKey : Key) (target : Handle) : Edit :=
  { key, payload := .key newKey, target, flags := { changeKey := true } }

/-- The report that `node`, once starting at `oldFirst`, now starts at `newFirst` and
needs what `flags` say. -/
def flagged (oldFirst newFirst : Key) (node : Handle) (flags : Flags) : Edit :=
  { key := oldFirst, payload := .key newFirst, target := node, flags }

/-- The edit written out whole, as reports on the order of edits show it. -/
def inspect (e : Edit) : String :=
  s!"Staged \x7b key: {e.key}, payload: {e.payload.inspect}, target: {e.target.inspect}, "
    ++ s!"kind: {e.flags.inspect} \x7d"

def keys (edits : List Edit) : List Key := edits.map (·.key)

/-- The edits in runs: maximal stretches of one target. -/
def runs (edits : List Edit) : List (List Edit) :=
  edits.splitBy fun a b => a.target == b.target

end Edit

end LevelIndex
