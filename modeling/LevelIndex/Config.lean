import LevelIndex.Error
import LevelIndex.Handle

/-!
# Configurations

A configuration fixes the size of the worker pool, the number of slots of the
store and the height from which on a single worker goes over a level. It is
usable if there are between one worker and `Config.maxWorkers`, and if there is
room for the root but no slot that a handle could not name. Any serial height
will do.
-/

namespace LevelIndex

structure Config where
  workers : Nat := 1
  storeCapacity : Nat := 65536
  serialHeight : Nat := 2
deriving DecidableEq

namespace Config

def maxWorkers : Nat := 256

/-- What can be wrong with a configuration. -/
inductive Defect where
  | noWorkers
  | tooManyWorkers (workers : Nat)
  | noRoom
  | unnameable (capacity : Nat)
deriving DecidableEq

namespace Defect

def field : Defect → String
  | noWorkers | tooManyWorkers _ => "workers"
  | noRoom | unnameable _ => "arena_capacity"

def details : Defect → String
  | noWorkers => "must be at least 1"
  | tooManyWorkers workers => s!"{workers} exceeds the maximum of {maxWorkers}"
  | noRoom => "must hold at least the root node"
  | unnameable capacity => s!"{capacity} slots cannot be addressed by 32-bit handles"

end Defect

/-- The first defect; the workers are looked at before the store. -/
def defect? (c : Config) : Option Defect :=
  if c.workers = 0 then some .noWorkers
  else if maxWorkers < c.workers then some (.tooManyWorkers c.workers)
  else if c.storeCapacity = 0 then some .noRoom
  else if Handle.nullRaw ≤ c.storeCapacity then some (.unnameable c.storeCapacity)
  else none

/-- A configuration that can be used. -/
structure Valid (c : Config) : Prop where
  workers_pos : 0 < c.workers
  workers_le : c.workers ≤ maxWorkers
  storeCapacity_pos : 0 < c.storeCapacity
  storeCapacity_lt : c.storeCapacity < Handle.nullRaw

theorem defect?_eq_none_iff {c : Config} : c.defect? = none ↔ c.Valid := by
  unfold defect?
  constructor
  · intro h
    split at h
    · cases h
    · split at h
      · cases h
      · split at h
        · cases h
        · split at h
          · cases h
          · exact ⟨by omega, by omega, by omega, by omega⟩
  · intro h
    have h1 := h.workers_pos
    have h2 := h.workers_le
    have h3 := h.storeCapacity_pos
    have h4 := h.storeCapacity_lt
    simp [Nat.not_lt.mpr h2, Nat.not_le.mpr h4, Nat.ne_of_gt h1, Nat.ne_of_gt h3]

/-- The error that a configuration with this defect is refused with. -/
def Defect.error (d : Defect) : Error :=
  { cause := .invalidConfig d.field d.details, context := ["IndexConfig::validate"] }

def validate (c : Config) : Except Error Unit :=
  match c.defect? with
  | none => .ok ()
  | some d => .error d.error

theorem validate_eq_ok_iff {c : Config} {u : Unit} : c.validate = .ok u ↔ c.Valid := by
  rw [← defect?_eq_none_iff]
  unfold validate
  split <;> simp_all

end Config

end LevelIndex
