import LevelIndex.Batch.Funnel
import LevelIndex.Proofs.Batch.Climb

/-!
# Engines without a state

An engine that keeps nothing, and only turns the edits of a level into those
of the next, is a pair of functions. To see which edits it is given, it is run
with a log: a state that notes every edit together with the height at which it
is executed (`PureEngine.logged`).

If such an engine does not see where its edits are cut, then the number of
workers and the height from which one of them works alone leave no trace in
its course (`PureEngine.run_agrees`).
-/

namespace LevelIndex

structure PureEngine where
  name : String
  /-- The greatest height that edits may reach. -/
  bound : Nat
  execute : (height : Nat) → List Edit → List Edit
  compact : (height : Nat) → List Edit → List Edit

namespace PureEngine

/-- Cutting edits where the target changes cuts what is staged for them. -/
def Splits (p : PureEngine) : Prop :=
  ∀ height edits r, Edit.CutAt edits r → p.execute height edits =
    p.execute height (edits.take r) ++ p.execute height (edits.drop r)

/-- The edits of a level as the log has them. -/
def entries (height : Nat) (edits : List Edit) : List (Nat × Edit) :=
  edits.map (height, ·)

/-- The engine with a log of all the edits it is given. -/
def logged (p : PureEngine) : Engine (List (Nat × Edit)) where
  name := p.name
  bound _ := .ok p.bound
  execute log height edits := .ok {
    state := log ++ entries height edits
    staged := p.execute height edits
    events := [] }
  compact log height edits := .ok {
    state := log
    staged := p.compact height edits
    events := [] }

/-- One worker, who does every level alone. -/
def alone : Pool := .ofRequest 1 0

variable {p : PureEngine}

theorem Splits.divisible (hp : p.Splits) : p.logged.Divisible := by
  intro log height edits r hr
  have hlog : entries height edits =
      entries height (edits.take r) ++ entries height (edits.drop r) := by
    rw [entries, entries, entries, ← List.map_append, List.take_append_drop]
  show Except.ok _ = Except.ok _
  rw [hlog, hp height edits r hr, List.append_assoc]

/-- The record of a level that one worker does alone. -/
def record (p : PureEngine) (height : Nat) (log : List (Nat × Edit))
    (edits : List Edit) : LevelRecord (List (Nat × Edit)) where
  height
  parallel := false
  before := log
  edits
  executed := {
    state := log ++ entries height edits
    staged := p.execute height edits
    events := [] }
  compacted := {
    state := log ++ entries height edits
    staged := p.compact height (p.execute height edits)
    events := [] }

theorem level_alone (height : Nat) (log : List (Nat × Edit)) (b : Buffers) :
    p.logged.level alone height log b =
      .ok (p.record height log b.current, { b with next := [[]] }) := by
  have hslices : alone.slices height b.current = [b.current] := by
    simp [Pool.slices, Pool.parallel, alone, Pool.ofRequest]
  have hparallel : alone.parallel height = false := by
    simp [Pool.parallel, alone, Pool.ofRequest]
  unfold Engine.level
  rw [hslices, hparallel]
  simp [Engine.executeEach, logged, record, Buffers.fill, Buffers.gather,
    bind, Except.bind, pure, Except.pure]

theorem climb_alone (count height : Nat) (log : List (Nat × Edit))
    (b : Buffers) :
    let r := p.record height log b.current
    let c := p.logged.climb alone (count + 1) height log b
    let rest := p.logged.climb alone count (height + 1) r.compacted.state
      { current := r.compacted.staged, next := [[]] }
    if r.compacted.staged ≠ [] ∧ p.logged.checkStaged height r.compacted.state
      r.compacted.staged = .ok ()
    then c = { rest with levels := r :: rest.levels }
    else c.levels = [r] ∧ ∀ log', c.ending = .ok log' →
      log' = r.compacted.state := by
  dsimp only
  rw [Engine.climb, level_alone]
  dsimp only
  split
  · next h =>
      rw [if_neg (by simpa using h.1), h.2]
      rfl
  · next h =>
      split
      · exact ⟨rfl, fun log' h => (Except.ok.inj h).symm⟩
      · next hne =>
          split
          · exact ⟨rfl, fun log' h => by cases h⟩
          · next hcheck => exact absurd ⟨by simpa using hne, hcheck⟩ h

/-- One worker executes every edit of every level, once and in order. -/
theorem log_alone : ∀ (count height : Nat) (log : List (Nat × Edit))
    (b : Buffers), let c := p.logged.climb alone count height log b
    (∀ r ∈ c.levels, r.executed.state = r.before ++ entries r.height r.edits) ∧
      ∀ log', c.ending = .ok log' →
        log' = log ++ c.levels.flatMap fun r => entries r.height r.edits
  | 0, height, log, b => by
      refine ⟨by simp [Engine.climb], fun log' h => ?_⟩
      cases h
  | count + 1, height, log, b => by
      have h := climb_alone (p := p) count height log b
      dsimp only at h ⊢
      split at h
      · obtain ⟨hlevels, hend⟩ := log_alone count (height + 1)
          (p.record height log b.current).compacted.state
          { current := (p.record height log b.current).compacted.staged
            next := [[]] }
        rw [h]
        refine ⟨fun r hr => ?_, fun log' h' => ?_⟩
        · rcases List.mem_cons.mp hr with rfl | hr
          · rfl
          · exact hlevels r hr
        · rw [hend log' h', List.flatMap_cons, ← List.append_assoc]
          rfl
      · obtain ⟨hlevels, hend⟩ := h
        rw [hlevels]
        refine ⟨fun r hr => ?_, fun log' h' => ?_⟩
        · rw [List.mem_singleton.mp hr]
          rfl
        · rw [hend log' h', List.flatMap_singleton]
          rfl

/-- From here on one worker meets only levels on which equal targets stand
together. -/
def Tidy (p : PureEngine) (height : Nat) (log : List (Nat × Edit))
    (edits : List Edit) : Prop :=
  ∀ count, count + height = heightLimit + 1 →
    ∀ r ∈ (p.logged.climb alone count height log
      { current := edits, next := [[]] }).levels,
      Clustered (Edit.targets r.edits)

theorem Tidy.clustered {height : Nat} {log : List (Nat × Edit)}
    {edits : List Edit} (h : p.Tidy height log edits)
    (hheight : height ≤ heightLimit) : Clustered (Edit.targets edits) := by
  have hfirst := climb_alone (p := p) (heightLimit - height) height log
    { current := edits, next := [[]] }
  refine h (heightLimit - height + 1) (by omega) (p.record height log edits) ?_
  dsimp only at hfirst
  split at hfirst
  · rw [hfirst]
    exact List.mem_cons_self
  · rw [hfirst.1]
    exact List.mem_singleton_self _

theorem Tidy.pass {height : Nat} {log : List (Nat × Edit)}
    {edits : List Edit} {step : Step (List (Nat × Edit))}
    (h : p.Tidy height log edits) (hstep : p.logged.pass height log edits =
      .ok step) (hne : step.staged ≠ []) (hcheck : p.logged.checkStaged height
      step.state step.staged = .ok ()) :
    p.Tidy (height + 1) step.state step.staged := by
  cases hstep
  intro count hcount r hr
  refine h (count + 1) (by omega) r ?_
  have hfirst := climb_alone (p := p) count height log
    { current := edits, next := [[]] }
  dsimp only at hfirst
  rw [if_pos ⟨hne, hcheck⟩] at hfirst
  rw [hfirst]
  exact List.mem_cons_of_mem _ hr

/-- **Workers leave no trace.** Let equal targets stand together at every level
that one worker reaches alone. Then any number of workers, sharing the levels
below any height, pass the same levels with the same edits, hand the same list
to each compaction, get the same list from it for the next level, and end the
same way, be it with a list that the check refuses. Every edit of every level
is executed exactly once. -/
theorem run_agrees (hp : p.Splits) (workers serialHeight : Nat)
    (edits : List Edit)
    (hc : ∀ r ∈ (p.logged.run (.ofRequest 1 0) [] edits).levels,
      Clustered (Edit.targets r.edits)) :
    let c := p.logged.run (.ofRequest workers serialHeight) [] edits
    c.outline = (p.logged.run (.ofRequest 1 0) [] edits).outline ∧
      (∀ r ∈ c.levels,
        r.executed.state = r.before ++ entries r.height r.edits) ∧
      ∀ log, c.ending = .ok log →
        log = c.levels.flatMap fun r => entries r.height r.edits := by
  dsimp only
  unfold Engine.run at hc ⊢
  by_cases hne : edits.isEmpty
  · rw [if_pos hne, if_pos hne]
    refine ⟨rfl, by simp, fun log h => ?_⟩
    cases h
    rfl
  · rw [if_neg hne] at hc
    rw [if_neg hne, if_neg hne]
    have htidy : p.Tidy 0 [] edits := by
      intro count hcount
      rw [show count = heightLimit + 1 by omega]
      exact hc
    have hout := Engine.climb_agrees hp.divisible (P := p.Tidy)
      (fun height log edits hh h => h.clustered hh)
      (fun height log edits step h => h.pass) (.ofRequest workers serialHeight)
      alone (b := .ofEdits edits (Pool.ofRequest workers serialHeight).workers)
      (c := .ofEdits edits alone.workers) (Nat.add_zero _) rfl htidy
    obtain ⟨hlevels, hend⟩ := log_alone (p := p) (heightLimit + 1) 0 []
      (.ofEdits edits alone.workers)
    refine ⟨hout, ?_, ?_⟩
    · intro r hr
      obtain ⟨r', hr', hsame⟩ := Course.exists_of_outline_eq hout hr
      have hstate : r'.executed.state = r.executed.state :=
        congrArg (·.executed.state) hsame
      have hbefore : r'.before = r.before := congrArg (·.before) hsame
      have hheight : r'.height = r.height := congrArg (·.height) hsame
      have hedits : r'.edits = r.edits := congrArg (·.edits) hsame
      rw [← hstate, ← hbefore, ← hheight, ← hedits]
      exact hlevels r' hr'
    · intro log hlog
      have hsame := congrArg (·.ending) hout
      rw [Course.flatMap_levels_eq hout fun r => rfl]
      exact hend log (hsame.symm.trans hlog)

/-- The funnel without its notes. -/
def funnel (bound : Nat) : PureEngine where
  name := "funnel"
  bound
  execute _ edits := edits.filterMap Funnel.onward
  compact _ edits := edits

theorem funnel_splits (bound : Nat) : (funnel bound).Splits := by
  intro height edits r _
  show List.filterMap _ _ = List.filterMap _ _ ++ List.filterMap _ _
  rw [← List.filterMap_append, List.take_append_drop]

/-- Three workers share two of three levels, the first of them unevenly. -/
theorem run_agrees_funnel :
    let edits : List Edit := [.remove 0 (.slot 1), .remove 1 (.slot 1),
      .remove 2 (.slot 2), .remove 3 (.slot 3)]
    let c := (funnel 16).logged.run (.ofRequest 3 2) [] edits
    (funnel 16).Splits ∧
      (∀ r ∈ ((funnel 16).logged.run (.ofRequest 1 0) [] edits).levels,
        Clustered (Edit.targets r.edits)) ∧
      c.levels.map (·.parallel) = [true, true, false] ∧
      c.outline = ((funnel 16).logged.run (.ofRequest 1 0) [] edits).outline ∧
      (∀ r ∈ c.levels,
        r.executed.state = r.before ++ entries r.height r.edits) ∧
      ∀ log, c.ending = .ok log →
        log = c.levels.flatMap fun r => entries r.height r.edits := by
  intro edits c
  have hc : ∀ r ∈ ((funnel 16).logged.run (.ofRequest 1 0) [] edits).levels,
      Clustered (Edit.targets r.edits) := by decide +kernel
  refine ⟨funnel_splits 16, hc, by decide +kernel, ?_⟩
  exact run_agrees (funnel_splits 16) 3 2 edits hc

end PureEngine

end LevelIndex
