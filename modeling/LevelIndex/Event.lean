import LevelIndex.Edit.Basic

/-!
# The event log

What an index does can be followed as a list of events. An event is a value;
its line of text is the severity, a message and the fields in a fixed order.
Whoever reads the log picks the least severity of interest.
-/

namespace LevelIndex

inductive Severity where
  | trace
  | debug
  | info
  | error
deriving DecidableEq

namespace Severity

def rank : Severity → Nat
  | trace => 0
  | debug => 1
  | info => 2
  | error => 3

def name : Severity → String
  | trace => "TRACE"
  | debug => "DEBUG"
  | info => "INFO"
  | error => "ERROR"

end Severity

/-- The steps a batch takes at each height, and the one it ends in. -/
inductive Phase where
  | distribute
  | execute
  | compact
  | aggregate
  | done
deriving DecidableEq

def Phase.name : Phase → String
  | distribute => "Distribute"
  | execute => "Execute"
  | compact => "Compact"
  | aggregate => "Aggregate"
  | done => "Done"

inductive Event where
  | indexCreated (workers storeCapacity serialHeight : Nat)
  | rootGrew (old new : Handle)
  | leavesLocated (keys : Nat)
  | batchStart (engine : String) (items workers : Nat)
  | phase (height : Nat) (step : Phase) (parallel : Bool)
  | level (engine : String) (height items : Nat) (parallel : Bool)
  | insertRewrite (node : Handle) (height items total : Nat)
  | removeRewrite (node : Handle) (height before after : Nat) (flags : Flags)
  | compacted (node : Handle) (height gathered : Nat)
  | tailEmptied (height dropped : Nat) (newTail : Handle)
  | batchSettled (engine : String) (height : Nat)
deriving DecidableEq

namespace Event

def severity : Event → Severity
  | indexCreated .. | batchStart .. | level .. | batchSettled .. => .debug
  | rootGrew .. => .info
  | leavesLocated .. | phase .. | insertRewrite .. | removeRewrite .. | compacted ..
  | tailEmptied .. => .trace

/-- The message and its fields. -/
def text : Event → String
  | indexCreated workers storeCapacity serialHeight =>
    s!"index created workers={workers} arena_capacity={storeCapacity} "
      ++ s!"serial_height={serialHeight}"
  | rootGrew old new => s!"root grew old={old} new={new}"
  | leavesLocated keys => s!"leaves located keys={keys}"
  | batchStart engine items workers =>
    s!"batch start engine={engine} items={items} workers={workers}"
  | phase height step parallel =>
    s!"phase tid=0 height={height} phase={step.name} parallel={parallel}"
  | level engine height items parallel =>
    let mode := if parallel then "parallel" else "serial"
    s!"level engine={engine} height={height} items={items} mode={mode}"
  | insertRewrite node height items total =>
    s!"insert rewrite node={node} height={height} items={items} total={total}"
  | removeRewrite node height before after flags =>
    s!"remove rewrite node={node} height={height} before={before} after={after} "
      ++ s!"kind={flags.inspect}"
  | compacted node height gathered =>
    s!"compacted node={node} height={height} gathered={gathered}"
  | tailEmptied height dropped newTail =>
    s!"level tail emptied height={height} dropped={dropped} new_tail={newTail}"
  | batchSettled engine height => s!"batch settled engine={engine} height={height}"

/-- The line of the log. -/
def line (e : Event) : String := s!"{e.severity.name} {e.text}"

/-- The events of at least the severity `least`, in order. -/
def atLeast (least : Severity) (events : List Event) : List Event :=
  events.filter fun e => least.rank ≤ e.severity.rank

theorem mem_atLeast {least : Severity} {events : List Event} {e : Event} :
    e ∈ atLeast least events ↔ e ∈ events ∧ least.rank ≤ e.severity.rank := by
  simp [atLeast]

/-- At the lowest severity nothing is left out. -/
theorem atLeast_trace (events : List Event) : atLeast .trace events = events := by
  simp [atLeast, Severity.rank]

end Event

end LevelIndex
