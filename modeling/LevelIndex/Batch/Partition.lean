import LevelIndex.Bisect
import LevelIndex.Edit.Basic

/-!
# Sharing a level among workers

The edits of a level are shared evenly among the workers, but no two workers
may rewrite one node. So a worker's share starts and ends at the end of a run
of edits with one target. Equal targets stand together because keys are sorted
and the nodes of a level own separate key ranges, so the end of a run is found
by bisection.
-/

namespace LevelIndex

/-- The positions from `start` up to but not including `stop`. -/
structure Span where
  start : Nat
  stop : Nat
deriving DecidableEq

namespace Span

def slice {α : Type} (l : List α) (r : Span) : List α := (l.drop r.start).take (r.stop - r.start)

end Span

/-- The end of the run of edits that share the target of the edit at `start`. -/
def runEnd (edits : List Edit) (start : Nat) : Nat :=
  match edits.drop start with
  | [] => start
  | e :: rest => start + leadingCount (fun x : Edit => x.target == e.target) (e :: rest)

/-- The share of one worker, counted from zero: an even share, widened to the ends of runs. -/
def share (edits : List Edit) (workers worker : Nat) : Span :=
  let left := edits.length * worker / workers
  let right := edits.length * (worker + 1) / workers
  if left < right then
    let left := if left = 0 then 0 else runEnd edits (left - 1)
    { start := left, stop := max left (runEnd edits (right - 1)) }
  else { start := left, stop := left }

/-- The shares of all workers, in order. -/
def shares (edits : List Edit) (workers : Nat) : List Span :=
  (List.range workers).map (share edits workers)

@[simp] theorem length_shares (edits : List Edit) (workers : Nat) :
    (shares edits workers).length = workers := by
  simp [shares]

theorem share_start_le_stop (edits : List Edit) (workers worker : Nat) :
    (share edits workers worker).start ≤ (share edits workers worker).stop := by
  unfold share
  dsimp only
  split
  · exact Nat.le_max_left _ _
  · exact Nat.le_refl _

end LevelIndex
