import LevelIndex.Proofs.Insert.Handover
import LevelIndex.Proofs.Reachable
import LevelIndex.Proofs.Remove.Handover

/-!
# Every level of a batch is handed over

The batches of an index that can be reached meet an intact tree, so the
invariants of a batch in flight hold at every level it passes, and what these
say of one level (`Remove.Handover`, `Insert.Handover`) holds all the way up. A
removal always gets through. An insert may run out of slots, and then that much
holds of the levels up to the one where it did.
-/

namespace LevelIndex

namespace Index

/-- What the levels of a course stage, by the keys. -/
def stages (c : Course Tree) : List (Nat × List Key) :=
  c.levels.map fun r => (r.height, Edit.keys r.compacted.staged)

theorem exists_of_stages {c : Course Tree} {height : Nat} {keys : List Key}
    {rest : List (Nat × List Key)} (h : stages c = (height, keys) :: rest) :
    ∃ r ∈ c.levels, r.height = height ∧
      Edit.keys r.compacted.staged = keys := by
  obtain ⟨r, levels, hlevels, hr, -⟩ := List.map_eq_cons_iff.mp h
  cases hr
  exact ⟨r, hlevels ▸ List.mem_cons_self, rfl, rfl⟩

/-! ## Removals -/

/-- **Removals.** A batch for an index that can be reached is handed over from
each level below the root to the next. -/
theorem remove_hands_over {x : Index} (h : x.Reachable) {keys : List Key}
    (hk : minKey ∉ keys) :
    ∃ leaves height tree events, x.locate (sortedKeys keys) = .ok leaves ∧
      x.tree.height = .ok height ∧
      x.remove keys = .ok ({ x with tree }, events) ∧
      (x.removeCourse keys leaves).ending = .ok tree ∧
      (x.removeCourse keys leaves).Ascends 0 x.tree
        ((sortedKeys keys).zipWith Edit.remove leaves) ∧
      ∀ r ∈ (x.removeCourse keys leaves).levels, r.height < height →
        ∃ old new upper, Remove.Handover r old new upper := by
  obtain ⟨t, s⟩ := h.exists_stores
  obtain ⟨row, height, i⟩ := s.exists_intact
  obtain ⟨leaves, hlocate, hf⟩ := exists_falling i hk
  obtain ⟨⟨tree, -, hend, -⟩, hlevels⟩ := hf.run_spec x.pool
  obtain ⟨events, hremove⟩ := remove_of_course hk hlocate hend
  refine ⟨leaves, height, tree, events, hlocate, i.height_eq, hremove, hend,
    Engine.run_ascends _ _ _ _, fun r hr hlt => ?_⟩
  obtain ⟨⟨row', hr'⟩, hpass⟩ := hlevels r hr
  exact hr'.handover hlt hpass

/-- A leaf that falls below one half takes in the next one, the separator of
which is told to go. -/
theorem remove_hands_over_merge :
    ∃ (x : Index) (leaves : List Handle), x.Reachable ∧ minKey ∉ [(2 : Key)] ∧
      ∃ r ∈ (x.removeCourse [2] leaves).levels, r.height = 0 ∧
        Edit.keys r.compacted.staged = [8] ∧
        ∃ old new upper, Remove.Handover r old new upper := by
  let calls := oneByOne 17 ++ [.remove [1]]
  have hc : ({ storeCapacity := 8 } : Config).Valid :=
    ⟨by decide, by decide, by decide, by decide⟩
  obtain ⟨x, events, hx⟩ := exists_ofConfig hc
  have hr := (Reachable.new hx).after calls
  have hk : minKey ∉ [(2 : Key)] := by decide
  have hcourse : observe { storeCapacity := 8 } calls (fun y =>
      (y.locate (sortedKeys [2])).toOption.map fun leaves =>
        stages (y.removeCourse [2] leaves)) =
      some (some [(0, [8]), (1, [])]) := by decide +kernel
  have htop : observe { storeCapacity := 8 } calls
      (fun y => y.tree.height.toOption) = some (some 1) := by decide +kernel
  obtain ⟨leaves, height, -, -, hlocate, hheight, -, -, -, hover⟩ :=
    remove_hands_over hr hk
  rw [observe, hx] at hcourse htop
  simp only [hlocate, hheight, Option.some.injEq] at hcourse htop
  obtain ⟨r, hmem, hzero, hstaged⟩ := exists_of_stages (Option.some.inj hcourse)
  obtain rfl : height = 1 := Option.some.inj htop
  exact ⟨_, leaves, hr, hk, r, hmem, hzero, hstaged, hover r hmem (by omega)⟩

/-! ## Inserts -/

/-- **Inserts.** A batch for an index that can be reached goes through, or runs
out of slots. Each level that it has passed, one that is new included, is
handed over to the next. -/
theorem insert_hands_over {x : Index} (h : x.Reachable) {batch : List Pair}
    (hb : minKey ∉ batch.map (·.key)) :
    ∃ leaves, x.locate ((normalForm batch).map (·.key)) = .ok leaves ∧
      ((∃ tree events, x.insert batch = .ok ({ x with tree }, events) ∧
        (x.insertCourse batch leaves).ending = .ok tree) ∨
        x.insert batch =
          .error (.aborted (.storeFull x.config.storeCapacity)) ∧
        (x.insertCourse batch leaves).ending =
          .error (.storeFull x.config.storeCapacity)) ∧
      (x.insertCourse batch leaves).Ascends 0 x.tree
        (insertEdits (normalForm batch) leaves) ∧
      ∀ r ∈ (x.insertCourse batch leaves).levels,
        ∃ found items nodes upper staged height,
          Insert.Handover r found items nodes upper staged height := by
  obtain ⟨t, s⟩ := h.exists_stores
  obtain ⟨row, height, i⟩ := s.exists_intact
  obtain ⟨leaves, hlocate, hr⟩ := exists_rising i hb
  obtain ⟨hyields, hlevels⟩ := hr.run_spec x.pool
  refine ⟨leaves, hlocate, ?_, Engine.run_ascends _ _ _ _, fun r hr => ?_⟩
  · cases hend : (x.insertCourse batch leaves).ending with
    | ok tree =>
        obtain ⟨events, hinsert⟩ := insert_of_course hb hlocate hend
        exact Or.inl ⟨tree, events, hinsert, rfl⟩
    | error f =>
        obtain rfl : f = .storeFull x.tree.store.capacity :=
          hyields.of_error hend
        rw [← s.capacity_eq]
        exact Or.inr ⟨insert_of_course_error hb hlocate hend, rfl⟩
  · obtain ⟨⟨hne, row', height', hr'⟩, hpass⟩ := hlevels r hr
    exact hr'.handover hne hpass

/-- The root, a full leaf, is split, and the key of its second half goes to a
root that is new. -/
theorem insert_hands_over_split :
    ∃ (x : Index) (leaves : List Handle), x.Reachable ∧
      minKey ∉ [(⟨20, 1⟩ : Pair)].map (·.key) ∧
      ∃ r ∈ (x.insertCourse [⟨20, 1⟩] leaves).levels, r.height = 0 ∧
        Edit.keys r.compacted.staged = [8] ∧
        ∃ found items nodes upper staged height,
          Insert.Handover r found items nodes upper staged height := by
  have hc : ({ storeCapacity := 8 } : Config).Valid :=
    ⟨by decide, by decide, by decide, by decide⟩
  obtain ⟨x, events, hx⟩ := exists_ofConfig hc
  have hr := (Reachable.new hx).after (oneByOne 15)
  have hb : minKey ∉ [(⟨20, 1⟩ : Pair)].map (·.key) := by decide
  have hcourse : observe { storeCapacity := 8 } (oneByOne 15) (fun y =>
      (y.locate ((normalForm [⟨20, 1⟩]).map (·.key))).toOption.map fun leaves =>
        stages (y.insertCourse [⟨20, 1⟩] leaves)) =
      some (some [(0, [8]), (1, [])]) := by decide +kernel
  obtain ⟨leaves, hlocate, -, -, hover⟩ := insert_hands_over hr hb
  rw [observe, hx] at hcourse
  simp only [hlocate, Option.some.injEq] at hcourse
  obtain ⟨r, hmem, hzero, hstaged⟩ := exists_of_stages (Option.some.inj hcourse)
  exact ⟨_, leaves, hr, hb, r, hmem, hzero, hstaged, hover r hmem⟩

end Index

end LevelIndex
