import LevelIndex.Pair

/-!
# Errors

An error is a call that the index turns down: a configuration that cannot be
used, a batch with the reserved key, a batch of mixed kinds; and it is how the
checker reports damage. Nothing has changed when a call ends in one. Every
place on the way out may put its name in front of the message.
-/

namespace LevelIndex

inductive Error.Cause where
  | invalidConfig (field details : String)
  | reservedKey (operation : String) (key : Key)
  | mixedBatch (expected found : String) (position : Nat)
  | corruptedTree (component details : String)
deriving DecidableEq

structure Error where
  cause : Error.Cause
  /-- The places that the error has passed, the last one first. -/
  context : List String := []
deriving DecidableEq

namespace Error

def withContext (place : String) (e : Error) : Error := { e with context := place :: e.context }

def isConfigError (e : Error) : Bool :=
  match e.cause with
  | .invalidConfig .. => true
  | _ => false

def isCorruption (e : Error) : Bool :=
  match e.cause with
  | .corruptedTree .. => true
  | _ => false

namespace Cause

/-- The words that every message of the kind starts with. -/
def title : Cause → String
  | invalidConfig .. => "Invalid configuration"
  | reservedKey .. => "Reserved key"
  | mixedBatch .. => "Mixed batch"
  | corruptedTree .. => "Corrupted tree"

def details : Cause → String
  | invalidConfig field details => s!"{field}: {details}"
  | reservedKey operation key =>
    s!"{operation} batch contains key {key}, which is reserved for the sentinel"
  | mixedBatch expected found position =>
    s!"expected only {expected} operations, found {found} at position {position}"
  | corruptedTree component details => s!"{component} corruption: {details}"

end Cause

def message (e : Error) : String :=
  ": ".intercalate (e.cause.title :: e.context ++ [e.cause.details])

@[simp] theorem cause_withContext (place : String) (e : Error) :
    (e.withContext place).cause = e.cause := rfl

end Error

end LevelIndex
