import LevelIndex.Batch.Buffers
import LevelIndex.Batch.Partition
import LevelIndex.Event
import LevelIndex.Require

/-!
# Driving a batch through the levels

A batch goes up the tree one height at a time. At each height the edits are
shared among the workers of a pool, each worker executes its share, what they
stage is gathered in the order of the workers and compacted by one of them, and
the result is published for the next height. The batch has settled when nothing
is left to publish. Below the pool's serial height all workers take part; from
there on one of them does the whole level.

What happens at a height is up to an *engine*: it acts on a state of its own
and says how far up its edits may go. The course of a batch is kept as a list
of records, one a level, together with how it ended. A record holds the states
in between, so that what each step did can be read off it, and the event log is
computed from the records (`Course.events`).

Before edits are published they have to pass `Engine.checkStaged`: they must
not leave through the root, and their keys must increase.
-/

namespace LevelIndex

/-! ## Pools -/

/-- How many workers there are, and from which height on one of them works alone. -/
structure Pool where
  workers : Nat
  serialHeight : Nat
  workers_pos : 0 < workers := by decide

namespace Pool

/-- A pool of the size asked for, or of one worker if that is none. -/
def ofRequest (workers serialHeight : Nat) : Pool :=
  { workers := max 1 workers, serialHeight, workers_pos := by omega }

def parallel (p : Pool) (height : Nat) : Bool := height < p.serialHeight

/-- The edits of a level as they are given to the workers, first to last. -/
def slices (p : Pool) (height : Nat) (edits : List Edit) : List (List Edit) :=
  if p.parallel height then (shares edits p.workers).map (Span.slice edits) else [edits]

end Pool

/-! ## Engines -/

/-- What work on some edits leaves for others: staged edits, and events. -/
structure Output where
  staged : List Edit
  events : List Event

/-- An output together with the state that the work has led to. -/
structure Step (σ : Type) extends Output where
  state : σ

/-- Works on pieces one after the other, each from the state the one before has left. -/
def Step.sequence {σ : Type} (work : σ → List Edit → Except Fault (Step σ)) :
    σ → List (List Edit) → Except Fault (Step σ)
  | s, [] => .ok { state := s, staged := [], events := [] }
  | s, piece :: pieces => do
    let first ← work s piece
    let rest ← sequence work first.state pieces
    return {
      state := rest.state
      staged := first.staged ++ rest.staged
      events := first.events ++ rest.events }

structure Engine (σ : Type) where
  name : String
  /-- The greatest height that edits may reach from this state. -/
  bound : σ → Except Fault Nat
  /-- Carries out the edits given to one worker. -/
  execute : σ → (height : Nat) → List Edit → Except Fault (Step σ)
  /-- The one pass over everything that was staged at a height. -/
  compact : σ → (height : Nat) → List Edit → Except Fault (Step σ) :=
    fun s _ edits => .ok { state := s, staged := edits, events := [] }

/-- What one level of a batch has done. -/
structure LevelRecord (σ : Type) where
  height : Nat
  parallel : Bool
  before : σ
  /-- The edits of the level. -/
  edits : List Edit
  /-- What all workers have staged, and what the first worker has logged. -/
  executed : Step σ
  compacted : Step σ

/-- The levels that a batch has passed, and how it ended. -/
structure Course (σ : Type) where
  levels : List (LevelRecord σ)
  ending : Except Fault σ

/-- The first two neighbours among the edits whose keys do not increase. -/
def Edit.disorder? : List Edit → Option (Edit × Edit)
  | a :: b :: rest => if b.key ≤ a.key then some (a, b) else disorder? (b :: rest)
  | _ => none

theorem Edit.disorder?_eq_none_iff {edits : List Edit} :
    disorder? edits = none ↔ Ascending (keys edits) := by
  induction edits with
  | nil => simp [disorder?, keys]
  | cons a rest ih =>
    cases rest with
    | nil => simp [disorder?, keys]
    | cons b rest =>
      simp only [keys, List.map_cons] at ih ⊢
      rw [disorder?, ascending_cons_cons, ← ih]
      by_cases h : b.key ≤ a.key
      · simp [h, Int64.not_lt.mpr h]
      · simp [h, Int64.not_le.mp h]

namespace Engine

variable {σ : Type}

/-- Executes the slices in the order of the workers. -/
def executeEach (e : Engine σ) (height : Nat) :
    σ → List (List Edit) → Except Fault (σ × List Output)
  | s, [] => .ok (s, [])
  | s, slice :: slices => do
    let step ← e.execute s height slice
    let (s, outputs) ← executeEach e height step.state slices
    return (s, step.toOutput :: outputs)

/-- Passes edits that may go on to the level above `height`. -/
def checkStaged (e : Engine σ) (height : Nat) (s : σ) (edits : List Edit) : Except Fault Unit := do
  let bound ← e.bound s
  require (height < bound) (.aboveRoot e.name edits.length (height + 1) bound)
  match Edit.disorder? edits with
  | none => .ok ()
  | some (first, second) => .error (.outOfOrder e.name (height + 1) first second)

/-- Passes one level: the record of it, and the emptied buffers. -/
def level (e : Engine σ) (pool : Pool) (height : Nat) (s : σ) (b : Buffers) :
    Except Fault (LevelRecord σ × Buffers) := do
  let (state, outputs) ← e.executeEach height s (pool.slices height b.current)
  let (staged, emptied) := (b.fill (outputs.map (·.staged))).gather
  let events := (outputs.head?.map (·.events)).getD []
  let compacted ← e.compact state height staged
  let record := {
    height
    parallel := pool.parallel height
    before := s
    edits := b.current
    executed := { state, staged, events }
    compacted }
  return (record, emptied)

/-- Passes the levels from `height` upwards, at most `count` of them. -/
def climb (e : Engine σ) (pool : Pool) : (count height : Nat) → σ → Buffers → Course σ
  | 0, _, _, _ => { levels := [], ending := .error .heightOverflow }
  | count + 1, height, s, b =>
    match e.level pool height s b with
    | .error f => { levels := [], ending := .error f }
    | .ok (record, emptied) =>
      let s := record.compacted.state
      let staged := record.compacted.staged
      if staged.isEmpty then { levels := [record], ending := .ok s }
      else
        match e.checkStaged height s staged with
        | .error f => { levels := [record], ending := .error f }
        | .ok () =>
          let rest := climb e pool count (height + 1) s (emptied.publish staged)
          { rest with levels := record :: rest.levels }

/-- The course of a batch that starts at the leaves with these edits. -/
def run (e : Engine σ) (pool : Pool) (s : σ) (edits : List Edit) : Course σ :=
  if edits.isEmpty then { levels := [], ending := .ok s }
  else e.climb pool (heightLimit + 1) 0 s (.ofEdits edits pool.workers)

theorem run_nil (e : Engine σ) (pool : Pool) (s : σ) :
    e.run pool s [] = { levels := [], ending := .ok s } := rfl

end Engine

/-! ## The log of a course -/

namespace LevelRecord

variable {σ : Type}

/-- The events of a level, in the order in which the first worker meets them. -/
def events (engine : String) (r : LevelRecord σ) : List Event :=
  [.phase r.height .distribute r.parallel,
    .level engine r.height r.edits.length r.parallel,
    .phase r.height .execute r.parallel]
  ++ r.executed.events
  ++ [.phase r.height .compact r.parallel]
  ++ r.compacted.events
  ++ [.phase r.height .aggregate r.parallel]

end LevelRecord

namespace Course

variable {σ : Type}

/-- The events of a batch that has settled. -/
def events (c : Course σ) (engine : String) (pool : Pool) : List Event :=
  match c.levels.head?, c.levels.getLast? with
  | some first, some last =>
    [.batchStart engine first.edits.length pool.workers]
    ++ c.levels.flatMap (·.events engine)
    ++ [.batchSettled engine last.height, .phase last.height .done last.parallel]
  | _, _ => []

end Course

end LevelIndex
