import LevelIndex.Fault

/-!
# What an edit carries

Each engine knows which payload an edit of its own has to carry, and asking an
edit for another one is a fault.
-/

namespace LevelIndex

namespace Edit

/-- The entry to merge. -/
def entry (e : Edit) : Except Fault Entry :=
  match e.payload with
  | .entry x => .ok x
  | p => .error (.notAnEntry e.key p)

/-- The key to put in place of the edit's own. -/
def newKey (e : Edit) : Except Fault Key :=
  match e.payload with
  | .key k => .ok k
  | p => .error (.notAKey e.key p)

@[simp] theorem entry_insert (key : Key) (x : Entry) (target : Handle) :
    (insert key x target).entry = .ok x := rfl

@[simp] theorem newKey_changeKey (key new : Key) (target : Handle) :
    (changeKey key new target).newKey = .ok new := rfl

@[simp] theorem newKey_flagged (old new : Key) (node : Handle) (flags : Flags) :
    (flagged old new node flags).newKey = .ok new := rfl

end Edit

end LevelIndex
