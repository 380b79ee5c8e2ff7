import LevelIndex.Proofs.Batch.Shares
import Mathlib.Data.List.Nodup

/-!
# One worker for each node

The workers of a level act on one store at the same time, so no node may be
given to two of them, nor to one of them twice. Nothing checks this: a share is
cut wherever the target changes, and a node whose edits stood in two places
would have two runs.

`Parcelled` says of the edits of a level that they are cut as they should be:
their keys increase, equal targets stand together, and so every target has one
run, which goes to one worker, whoever the workers are. It follows from the
first two alone (`Parcelled.of_clustered`), because the runs of the slices are
the runs of all edits: had two slices a target in common, the whole would have
two runs with it (`pairwise_of_distinct`).
-/

namespace LevelIndex

open List

namespace Edit

/-- The node that a run is aimed at. -/
def aim (run : List Edit) : Handle := (run.head?.map (·.target)).getD .null

variable {edits run : List Edit} {e : Edit}

theorem target_eq_aim (h : run ∈ runs edits) (he : e ∈ run) :
    e.target = aim run := by
  have hchain := isChain_of_mem_splitBy h
  clear h
  induction run generalizing e with
  | nil => cases he
  | cons a run ih =>
      rcases mem_cons.mp he with rfl | he
      · rfl
      · rw [ih he hchain.tail]
        cases run with
        | nil => cases he
        | cons b run =>
            have hab := (isChain_cons_cons.mp hchain).1
            exact (by simpa using hab : a.target = b.target).symm

theorem exists_run (he : e ∈ edits) : ∃ run ∈ runs edits, e ∈ run := by
  rw [← flatten_splitBy (fun a b : Edit => a.target == b.target) edits] at he
  exact mem_flatten.mp he

theorem pairwise_of_distinct {slices : List (List Edit)}
    (h : ((slices.flatMap runs).map aim).Nodup) :
    slices.Pairwise fun a b => ∀ e ∈ a, ∀ f ∈ b, e.target ≠ f.target := by
  rw [map_flatMap] at h
  refine (nodup_flatMap.mp h).2.imp ?_
  intro a b hdisjoint e he f hf heq
  obtain ⟨r, hr, he⟩ := exists_run he
  obtain ⟨r', hr', hf⟩ := exists_run hf
  refine hdisjoint (mem_map_of_mem hr) ?_
  rw [← target_eq_aim hr he, heq, target_eq_aim hr' hf]
  exact mem_map_of_mem hr'

end Edit

/-- The edits of a level, cut so that every target has one run and every run
one worker. -/
structure Parcelled (height : Nat) (edits : List Edit) : Prop where
  ascending : Ascending (Edit.keys edits)
  clustered : Clustered (Edit.targets edits)
  distinct : ((Edit.runs edits).map Edit.aim).Nodup
  /-- The workers get all edits, -/
  shared : ∀ pool : Pool, (pool.slices height edits).flatten = edits
  /-- none of them gets a part of a run, -/
  whole : ∀ pool : Pool,
    (pool.slices height edits).flatMap Edit.runs = Edit.runs edits
  /-- and no two of them get edits of one target. -/
  apart : ∀ pool : Pool, (pool.slices height edits).Pairwise
    fun a b => ∀ e ∈ a, ∀ f ∈ b, e.target ≠ f.target

theorem Parcelled.of_clustered {edits : List Edit} (height : Nat)
    (ha : Ascending (Edit.keys edits)) (hc : Clustered (Edit.targets edits))
    (hd : ((Edit.runs edits).map Edit.aim).Nodup) : Parcelled height edits where
  ascending := ha
  clustered := hc
  distinct := hd
  shared pool := by
    have hone : ∀ l : List Edit, (Edit.runs l).flatten = l := flatten_splitBy _
    have hall := congrArg flatten (flatMap_runs_slices hc pool height)
    rw [hone, flatMap_def, flatten_flatten, map_map] at hall
    have hid : (pool.slices height edits).map (flatten ∘ Edit.runs) =
        pool.slices height edits :=
      (map_congr_left fun l _ => hone l).trans (map_id _)
    rwa [hid] at hall
  whole pool := flatMap_runs_slices hc pool height
  apart pool := by
    refine Edit.pairwise_of_distinct ?_
    rwa [flatMap_runs_slices hc pool height]

end LevelIndex
