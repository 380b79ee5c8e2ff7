import LevelIndex.Proofs.Handover
import LevelIndex.Proofs.Remove.Parting

/-!
# The groups of a removal are parted well

When a removal climbs an index that can be reached, each level is compacted
group by group, and a group that does not fit a node is parted between its first
node and one that is visited after it. Every such group, at any level and
wherever in the level it comes, is parted so that both halves are well filled
and the separators above stay in order (`Remove.Parting`).

The invariant of the batch (`Remove.Falling`) gives this for one level
(`Remove.Falling.exists_parting`). What is added here is that all levels of the
course of a batch are met with the invariant, and that what its workers have
executed is what one worker executes (`Engine.level_executed`).
-/

namespace LevelIndex

namespace Index

/-- **Parted groups.** A removal from an index that can be reached goes through,
and all groups with more cells than fit a node that its compactions gather are
parted well. -/
theorem remove_parts_groups {x : Index} (h : x.Reachable) {keys : List Key}
    (hk : minKey ∉ keys) :
    ∃ leaves tree events, x.locate (sortedKeys keys) = .ok leaves ∧
      x.remove keys = .ok ({ x with tree }, events) ∧
      (x.removeCourse keys leaves).ending = .ok tree ∧
      ∀ r ∈ (x.removeCourse keys leaves).levels,
        Remove.compact r.executed.state r.height r.executed.staged =
          .ok r.compacted ∧
        ∀ f e g, Remove.Gathers r.height ⟨r.executed.state, none⟩
            r.executed.staged f e g → Node.capacity < g.cells.length →
          ∃ separator owner between heir midKey step,
            Remove.Parting r.before r.height f e g r.compacted.staged separator
              owner between heir midKey step := by
  obtain ⟨t, s⟩ := h.exists_stores
  obtain ⟨row, height, i⟩ := s.exists_intact
  obtain ⟨leaves, hlocate, hf⟩ := exists_falling i hk
  obtain ⟨⟨tree, -, hend, -⟩, hlevels⟩ := hf.run_spec x.pool
  obtain ⟨events, hremove⟩ := remove_of_course hk hlocate hend
  refine ⟨leaves, tree, events, hlocate, hremove, hend, fun r hr => ?_⟩
  obtain ⟨⟨row', hfall⟩, -⟩ := hlevels r hr
  obtain ⟨b, b', hlevel, hedits⟩ := Engine.exists_level_of_run hr
  have hruns : Remove.engine.ByRuns Remove.rewrite := fun _ _ _ => rfl
  have hclustered := hedits ▸ hfall.clustered
  have hexecuted := Engine.level_executed hruns hclustered hlevel
  obtain ⟨-, hcompacted⟩ :=
    Engine.level_alone hruns.divisible hclustered hlevel
  exact ⟨hcompacted, fun f e g m hlen =>
    hfall.exists_parting hexecuted hcompacted m hlen⟩

/-- What the compactions of a course log, by height. -/
def compactions (c : Course Tree) : List (Nat × List Event) :=
  c.levels.map fun r => (r.height, r.compacted.events)

theorem exists_of_compactions {c : Course Tree} {height : Nat}
    {events : List Event} {rest : List (Nat × List Event)}
    (h : compactions c = (height, events) :: rest) :
    ∃ r ∈ c.levels, r.height = height ∧ r.compacted.events = events := by
  obtain ⟨r, levels, hlevels, hr, -⟩ := List.map_eq_cons_iff.mp h
  cases hr
  exact ⟨r, hlevels ▸ List.mem_cons_self, rfl, rfl⟩

/-- Two keys go from the first leaf and all from the second, so that these are
put together with the third, which is full. -/
theorem remove_parts_groups_of_three :
    ∃ (x : Index) (keys : List Key) (leaves : List Handle), x.Reachable ∧
      minKey ∉ keys ∧ ∃ r ∈ (x.removeCourse keys leaves).levels, ∃ f e g,
        Remove.Gathers r.height ⟨r.executed.state, none⟩ r.executed.staged f e
          g ∧ Node.capacity < g.cells.length ∧
        ∃ separator owner between heir midKey step,
          Remove.Parting r.before r.height f e g r.compacted.staged separator
            owner between heir midKey step := by
  let keys : List Key := [2, 3, 8, 9, 10, 11, 12, 13, 14, 15, 16]
  have hc : ({ storeCapacity := 8 } : Config).Valid :=
    ⟨by decide, by decide, by decide, by decide⟩
  obtain ⟨x, events, hx⟩ := exists_ofConfig hc
  have hr := (Reachable.new hx).after (oneByOne 33)
  have hk : minKey ∉ keys := by decide
  have hsorted : sortedKeys keys = keys := sortedKeys_of_ascending (by decide)
  have hcourse : observe { storeCapacity := 8 } (oneByOne 33) (fun y =>
      (y.locate keys).toOption.map fun leaves => compactions
        (Remove.engine.run y.pool y.tree (keys.zipWith Edit.remove leaves))) =
      some (some [(0, [.compacted .first 0 23]), (1, [])]) := by
    decide +kernel
  obtain ⟨leaves, tree, events', hlocate, -, -, hparts⟩ :=
    remove_parts_groups hr hk
  rw [hsorted] at hlocate
  rw [observe, hx] at hcourse
  simp only [hlocate, Option.some.injEq] at hcourse
  obtain ⟨r, hmem, hzero, hevents⟩ :=
    exists_of_compactions (Option.some.inj hcourse)
  have hmem' :
      r ∈ ((x.after (oneByOne 33)).removeCourse keys leaves).levels := by
    rw [removeCourse, hsorted]
    exact hmem
  obtain ⟨hcompacted, hpart⟩ := hparts r hmem'
  obtain ⟨f, e, g, m, -, hcount⟩ := Remove.exists_gathers_of_compact hcompacted
    (show .compacted .first r.height 23 ∈ r.compacted.events by
      rw [hevents, hzero]
      exact List.mem_singleton_self _)
  have hlen : Node.capacity < g.cells.length := by
    rw [hcount]
    decide
  exact ⟨_, keys, leaves, hr, hk, r, hmem', f, e, g, m, hlen,
    hpart f e g m hlen⟩

end Index

end LevelIndex
