import LevelIndex.Proofs.Insert.Growth
import LevelIndex.Proofs.Reachable

/-!
# How a tree grows

A batch that finds a slot for each of its pairs on each level, and as many for
the levels to come, goes through. What it stages at the levels of the old tree
is counted run by run, and what comes out of the old root alone decides by how
many levels the tree has grown and how many nodes they have.
-/

namespace LevelIndex

open LevelIndex.Insert (merged nodesFor)

namespace Index

variable {x : Index}

/-- **Growth.** A batch with enough slots goes through, though its bound moves
up with the tree. A level of the old tree stages an edit for each node beyond
the first that a run needs, never more than have come to it. A batch that goes
through makes the tree higher by the digits, to the base of a node's capacity,
of the number of edits that were staged at the old root; and each of the new
levels has as many nodes as the one below it needs. -/
theorem insert_grows (h : x.Reachable) {batch : List Pair}
    (hb : minKey ∉ batch.map (·.key)) :
    ∃ leaves height, x.locate ((normalForm batch).map (·.key)) = .ok leaves ∧
      x.tree.height = .ok height ∧
      (x.tree.store.allocated + (height + 2) * (normalForm batch).length ≤
          x.config.storeCapacity →
        ∃ tree, (x.insertCourse batch leaves).ending = .ok tree) ∧
      (∀ r ∈ (x.insertCourse batch leaves).levels, r.height ≤ height →
        r.compacted.staged.length = ((Edit.runs r.edits).map fun run =>
          nodesFor (merged r.before.store (Site.ofRun run)).length - 1).sum ∧
        r.compacted.staged.length ≤ r.edits.length) ∧
      ∀ tree, (x.insertCourse batch leaves).ending = .ok tree →
        (∃ events, x.insert batch = .ok ({ x with tree }, events)) ∧
        ∃ grown sizes, tree.height = .ok grown ∧
          tree.levelSizes = .ok sizes ∧ sizes.length = grown + 1 ∧
          grown = height + (Nat.digits Node.capacity
            ((x.insertCourse batch leaves).stagedAt height).length).length ∧
          ∀ k, height ≤ k → k < grown →
            sizes[k + 1]? = sizes[k]?.map nodesFor := by
  obtain ⟨t, s⟩ := h.exists_stores
  obtain ⟨row, height, i⟩ := s.exists_intact
  obtain ⟨leaves, hlocate, hr⟩ := exists_rising i hb
  obtain ⟨hroom, hlevels⟩ := hr.run_room x.pool
  refine ⟨leaves, height, hlocate, i.height_eq, fun henough => ?_,
    fun r hr hle => ?_, fun tree hend => ?_⟩
  · have hlen : (insertEdits (normalForm batch) leaves).length ≤
        (normalForm batch).length := by
      rw [insertEdits, List.length_zipWith]
      exact Nat.min_le_left _ _
    have hmul := Nat.mul_le_mul_left (height + 2) hlen
    obtain ⟨tree, hend, -⟩ := (hroom.weaken fun f hf => by
      have hshort := hf.2
      rw [s.capacity_eq] at hshort
      omega).exists_ok
    exact ⟨tree, hend⟩
  · obtain ⟨hrising, hpass⟩ := hlevels r hr
    obtain ⟨row', r'⟩ := hrising hle
    obtain ⟨hstaged, hmost, -⟩ := (r'.pass_need hle).of_ok hpass
    exact ⟨hstaged, hmost⟩
  · obtain ⟨row', grown, i', hgrown, htapers⟩ := hr.run_grows x.pool hend
    refine ⟨insert_of_course hb hlocate hend, grown, _, i'.height_eq,
      i'.levelSizes_eq, by simp, hgrown, fun k hk hlt => ?_⟩
    rw [List.getElem?_map, List.getElem?_map,
      List.getElem?_range (by omega), List.getElem?_range (by omega)]
    exact congrArg some (htapers k hk hlt)

/-- A first batch of seventeen nodes more than one: the links to them need two
nodes, and these a root. -/
theorem insert_grows_two_levels :
    ∃ (x : Index) (batch : List Pair) (leaves : List Handle) (tree : Tree)
      (sizes : List Nat), x.Reachable ∧ minKey ∉ batch.map (·.key) ∧
      x.tree.height = .ok 0 ∧
      ((x.insertCourse batch leaves).stagedAt 0).length = 17 ∧
      (x.insertCourse batch leaves).ending = .ok tree ∧
      tree.height = .ok 2 ∧ tree.levelSizes = .ok sizes ∧
      sizes[2]? = sizes[1]?.map nodesFor ∧
      sizes[1]? = sizes[0]?.map nodesFor := by
  let config : Config := { storeCapacity := 600 }
  let batch : List Pair := (List.range 272).map fun k => ⟨.ofNat k, 1⟩
  obtain ⟨x, events, hx⟩ := exists_ofConfig
    (show config.Valid from ⟨by decide, by decide, by decide, by decide⟩)
  have hr := Reachable.new hx
  have hb : minKey ∉ batch.map (·.key) := by decide +kernel
  have hnormal : normalForm batch = batch :=
    normalForm_of_ascending (firstDescent?_eq_none_iff.mp (by decide +kernel))
  have hempty : observe config [] (fun y =>
      (y.tree.height.toOption, y.tree.store.allocated, y.config.storeCapacity,
        (y.locate (batch.map (·.key))).toOption)) =
      some (some 0, 1, 600, some (List.replicate 272 .first)) := by
    decide +kernel
  have hrun : observe config [] (fun y =>
      ((Insert.engine.run y.pool y.tree (insertEdits batch
        (List.replicate 272 .first))).stagedAt 0).length) = some 17 := by
    decide +kernel
  obtain ⟨leaves, height, hlocate, hheight, hroom, -, hgrown⟩ :=
    insert_grows hr hb
  rw [hnormal] at hlocate hroom
  rw [observe, hx] at hempty hrun
  simp only [after, List.foldl_nil, hheight, hlocate, Option.some.injEq,
    Prod.mk.injEq, Except.toOption] at hempty hrun
  obtain ⟨rfl, hall, hcap, rfl⟩ := hempty
  have hstaged : ((x.insertCourse batch
      (List.replicate 272 .first)).stagedAt 0).length = 17 := by
    rw [insertCourse, hnormal, hrun]
  obtain ⟨tree, hend⟩ := hroom (by rw [hall, hcap]; simp [batch])
  obtain ⟨-, grown, sizes, htop, hsizes, -, heq, htapers⟩ := hgrown tree hend
  rw [hstaged, show (Nat.digits Node.capacity 17).length = 2 by
    simp [Node.capacity]] at heq
  subst heq
  exact ⟨x, batch, _, tree, sizes, hr, hb, hheight, hstaged, hend, htop,
    hsizes, htapers 1 (by omega) (by omega), htapers 0 (by omega) (by omega)⟩

end Index

end LevelIndex
