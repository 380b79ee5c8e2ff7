import LevelIndex.Fault

/-!
# The buffers of a batch

While a level is worked on, its edits stand in `current`, where every worker
reads them, and each worker puts what it stages into a buffer of its own.
Between levels the buffers are emptied in the order of the workers, which keeps
the edits in key order, and the result is published as the next level's.
-/

namespace LevelIndex

structure Buffers where
  /-- The edits of the level. -/
  current : List Edit
  /-- What each worker has staged. -/
  next : List (List Edit)

namespace Buffers

def ofEdits (edits : List Edit) (workers : Nat) : Buffers :=
  { current := edits, next := List.replicate workers [] }

def workers (b : Buffers) : Nat := b.next.length

/-- Adds an edit to the buffer of a worker, and tells how many it then holds. -/
def push (b : Buffers) (worker : Nat) (e : Edit) : Except Fault (Nat × Buffers) :=
  if h : worker < b.next.length then
    let buffer := b.next[worker] ++ [e]
    .ok (buffer.length, { b with next := b.next.set worker buffer })
  else .error (.noWorker b.next.length worker)

/-- Puts what the workers have staged into their buffers, the first worker's first. -/
def fill (b : Buffers) (staged : List (List Edit)) : Buffers := { b with next := staged }

/-- All that is staged, in the order of the workers, and the buffers emptied. -/
def gather (b : Buffers) : List Edit × Buffers :=
  (b.next.flatten, { b with next := b.next.map fun _ => [] })

def publish (b : Buffers) (edits : List Edit) : Buffers := { b with current := edits }

@[simp] theorem gather_fst (b : Buffers) : b.gather.1 = b.next.flatten := rfl

@[simp] theorem current_publish (b : Buffers) (edits : List Edit) :
    (b.publish edits).current = edits := rfl

/-- What was gathered is not gathered again. -/
theorem gather_gather (b : Buffers) : b.gather.2.gather.1 = [] := by
  simp [gather]

end Buffers

end LevelIndex
