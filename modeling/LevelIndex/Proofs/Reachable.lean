import LevelIndex.Proofs.Check
import LevelIndex.Proofs.History
import LevelIndex.Proofs.Insert.Room
import LevelIndex.Proofs.Nodes

/-!
# What holds of every index that can be reached

An index that calls lead to stores a table, so its tree is intact. Hence it
passes the checker, its nodes are as full as they should be, and its next batch
either goes through or, where it inserts, runs out of slots.

How many slots an insert needs is what it uses where there are enough of them.
To say so, the index is compared with a *twin*, an index over the same nodes
with another number of slots. What goes through in a twin goes through here, to
the same nodes, or the store is full here and has fewer slots than the twin has
used (`Twin.insert_follows`). Nothing is said of a twin that runs out of slots
itself.
-/

namespace LevelIndex

namespace Index

theorem Reachable.exists_intact {x : Index} (h : x.Reachable) :
    ∃ row height items, x.tree.Intact row height items := by
  obtain ⟨t, r⟩ := h.exists_stores
  obtain ⟨row, height, i⟩ := r.exists_intact
  exact ⟨row, height, t.items, i⟩

/-! ## The checker -/

/-- **Structure.** Every index that can be reached passes the checker. Each
of its levels starts with the least key, the first leaf with the sentinel,
and no other entry of a leaf is empty. -/
theorem reachable_passes_check {x : Index} (h : x.Reachable) :
    x.check = .ok (.ok ()) ∧
      (∃ height, x.tree.height = .ok height ∧ ∀ k ≤ height, ∃ first n,
        x.tree.leftmostAt k = .ok first ∧ x.tree.store.get? first = some n ∧
        n.keys.head? = some minKey) ∧
      ∃ first n, x.tree.leftmostAt 0 = .ok first ∧
        x.tree.store.get? first = some n ∧
        n.cells.head? = some ⟨minKey, .null⟩ ∧
        ∀ p m slot c, x.tree.Has p → x.tree.store.get? p = some m →
          m.height = 0 → m.cells[slot]? = some c → c.entry = .null →
            p = first ∧ slot = 0 := by
  obtain ⟨row, height, items, i⟩ := h.exists_intact
  refine ⟨by rw [check, i.check_eq_ok], ⟨height, i.height_eq, ?_⟩, ?_⟩
  · intro k hk
    obtain ⟨p, rest, hrow, hfirst⟩ := (i.level k hk).exists_cons
    have hp : p ∈ row k := by simp [hrow]
    obtain ⟨c, cells, hcells, hkey⟩ :=
      Node.exists_cons ((i.level k hk).nonempty p hp)
    refine ⟨p, _, i.leftmostAt_eq hk hrow, i.get?_eq hk hp, ?_⟩
    rw [Node.keys, hcells, ← hfirst, hkey]
    rfl
  · obtain ⟨p, rest, hrow, -⟩ := (i.level 0 (Nat.zero_le _)).exists_cons
    have hp : p ∈ row 0 := by simp [hrow]
    obtain ⟨c, cells, hcells, -⟩ :=
      Node.exists_cons ((i.level 0 (Nat.zero_le _)).nonempty p hp)
    refine ⟨p, _, i.leftmostAt_eq (Nat.zero_le _) hrow,
      i.get?_eq (Nat.zero_le _) hp, ?_, fun q m slot c hq hm hm0 hc hnull => ?_⟩
    · have hleaves := i.leaves
      rw [hrow, Store.contents_cons, hcells] at hleaves
      rw [hcells, (List.cons.inj hleaves).1]
      rfl
    · obtain ⟨k, hk, hqk⟩ := i.has_iff.mp hq
      obtain rfl := Option.some.inj (hm.symm.trans (i.get?_eq hk hqk))
      obtain rfl : k = 0 := ((i.level k hk).height_eq q hqk).symm.trans hm0
      exact i.eq_first_of_null hrow hqk hc hnull

/-- Inserts of `n` pairs, one after the other. -/
def oneByOne (n : Nat) : List Call :=
  (List.range n).map fun k => .insert [⟨.ofNat k, .ofNat (k * k)⟩]

/-- What is seen of an index that has carried out a history. -/
def observe {α : Type} (config : Config) (calls : List Call) (f : Index → α) :
    Option α :=
  match ofConfig config with
  | .ok (x, _) => some (f (x.after calls))
  | .error _ => none

/-- A tree of two levels, with a removal after a split. -/
theorem reachable_passes_check_two_levels :
    ∃ x : Index, x.Reachable ∧ x.tree.height.toOption = some 1 ∧
      x.tree.store.allocated = 3 ∧ x.check = .ok (.ok ()) := by
  let calls := oneByOne 17 ++ [.remove [3]]
  have hc : ({ storeCapacity := 8 } : Config).Valid :=
    ⟨by decide, by decide, by decide, by decide⟩
  obtain ⟨x, events, hx⟩ := exists_ofConfig hc
  have hr := (Reachable.new hx).after calls
  have hshape : observe { storeCapacity := 8 } calls
      (fun y => y.tree.height.toOption) = some (some 1) := by decide +kernel
  have hall : observe { storeCapacity := 8 } calls
      (fun y => y.tree.store.allocated) = some 3 := by decide +kernel
  rw [observe, hx] at hshape hall
  exact ⟨x.after calls, hr, Option.some.inj hshape, Option.some.inj hall,
    (reachable_passes_check hr).1⟩

/-! ## Occupancy -/

/-- **Occupancy.** Every node has a cell and no more than fit, and it is at
least half full, unless it is the root or the last of its level. -/
theorem reachable_occupancy {x : Index} (h : x.Reachable) :
    (∀ p, x.tree.Has p → ∃ n row, x.tree.store.get? p = some n ∧
      x.tree.level n.height = .ok row ∧ p ∈ row ∧
      1 ≤ n.size ∧ n.size ≤ Node.capacity ∧
      (p ≠ x.tree.root → row.getLast? ≠ some p → Node.half ≤ n.size)) ∧
    x.tree.occupancyViolations = .ok [] := by
  obtain ⟨row, height, items, i⟩ := h.exists_intact
  refine ⟨?_, i.occupancyViolations_eq⟩
  intro p hp
  obtain ⟨k, hk, hpk⟩ := i.has_iff.mp hp
  have hl := i.level k hk
  refine ⟨_, row k, i.get?_eq hk hpk, ?_, hpk, ?_, Node.size_le _,
    fun _ hlast => hl.half p ?_⟩
  · rw [hl.height_eq p hpk, i.level_eq hk]
  · exact List.length_pos_iff.mpr (hl.nonempty p hpk)
  · obtain ⟨last, hl⟩ : ∃ last, (row k).getLast? = some last :=
      ⟨_, List.getLast?_eq_some_getLast (List.ne_nil_of_mem hpk)⟩
    obtain ⟨front, hsplit⟩ := List.getLast?_eq_some_iff.mp hl
    rw [hsplit, List.dropLast_concat]
    rw [hsplit] at hpk hlast
    rcases List.mem_append.mp hpk with hp | hp
    · exact hp
    · exact absurd (by simp [List.mem_singleton.mp hp]) hlast

theorem reachable_occupancy_two_levels :
    ∃ x : Index, x.Reachable ∧ x.tree.levelSizes.toOption = some [2, 1] ∧
      x.tree.occupancyViolations = .ok [] := by
  let calls := oneByOne 17 ++ [.remove [3]]
  have hc : ({ storeCapacity := 8 } : Config).Valid :=
    ⟨by decide, by decide, by decide, by decide⟩
  obtain ⟨x, events, hx⟩ := exists_ofConfig hc
  have hr := (Reachable.new hx).after calls
  have hshape : observe { storeCapacity := 8 } calls
      (fun y => y.tree.levelSizes.toOption) =
      some (some [2, 1]) := by decide +kernel
  rw [observe, hx] at hshape
  exact ⟨x.after calls, hr, Option.some.inj hshape, (reachable_occupancy hr).2⟩

/-! ## The room for an insert -/

/-- The indexes differ in the number of slots only. -/
structure Twin (x y : Index) : Prop where
  workers_eq : x.config.workers = y.config.workers
  serialHeight_eq : x.config.serialHeight = y.config.serialHeight
  tree : x.tree.Twin x.config.storeCapacity y.tree

namespace Twin

variable {x y : Index}

theorem locate_eq (w : x.Twin y) (keys : List Key) :
    x.locate keys = y.locate keys :=
  mapBlocks_congr _ _ keys (funext fun key => by rw [w.tree.search_eq])

theorem pool_eq (w : x.Twin y) : x.pool = y.pool := by
  rw [pool, pool, w.workers_eq, w.serialHeight_eq]

theorem climb_follows (w : x.Twin y) {keys : List Key}
    {f : List Handle → List Edit} {y' : Index} {events : List Event}
    (h : y.climb Insert.engine keys f = .ok (y', events)) :
    x.climb Insert.engine keys f = .error x.full ∧
        x.config.storeCapacity < y'.tree.store.allocated ∨
      ∃ x' events', x.climb Insert.engine keys f = .ok (x', events') ∧
        x'.tree.Twin x.config.storeCapacity y'.tree := by
  by_cases hne : keys = []
  · subst hne
    cases h
    exact Or.inr ⟨x, [], rfl, w.tree⟩
  · rw [climb, if_neg (by simpa using hne)] at h
    obtain ⟨leaves, hleaves, h⟩ := bind_eq_ok.mp h
    obtain ⟨tree, htree, h⟩ := bind_eq_ok.mp h
    cases h
    have hnil (heq : keys = []) : f leaves = [] := absurd heq hne
    have hlocate := mapError_eq_ok.mp hleaves
    have hend : (Insert.engine.run y.pool y.tree (f leaves)).ending =
        .ok tree := mapError_eq_ok.mp htree
    have hfollows := Insert.run_follows y.pool (f leaves) w.tree hend
    rw [← w.pool_eq] at hfollows
    have hlocate' := (w.locate_eq keys).trans hlocate
    cases hr : (Insert.engine.run x.pool x.tree (f leaves)).ending with
    | error fault =>
        rw [hr] at hfollows
        obtain ⟨rfl, hlt⟩ := hfollows
        exact Or.inl ⟨climb_eq_error hnil hlocate' hr, hlt⟩
    | ok t =>
        rw [hr] at hfollows
        obtain ⟨events', hx⟩ := climb_eq_ok (x := x) hnil hlocate' hr
        exact Or.inr ⟨_, events', hx, hfollows⟩

/-- An insert that goes through where there are slots enough leads to the same
nodes under the same root elsewhere, unless there are fewer slots than it
uses. -/
theorem insert_follows (w : x.Twin y) {batch : List Pair}
    (hb : minKey ∉ batch.map (·.key)) {y' : Index} {events : List Event}
    (h : y.insert batch = .ok (y', events)) :
    x.insert batch = .error x.full ∧
      x.config.storeCapacity < y'.tree.store.allocated ∨
      ∃ x' events', x.insert batch = .ok (x', events') ∧
        x'.tree.Twin x.config.storeCapacity y'.tree := by
  rw [insert_eq y hb] at h
  rw [insert_eq x hb]
  exact w.climb_follows h

end Twin

/-- **No fault is in reach.** A removal goes through and takes no slot. An
insert goes through, or the store is full; it is full exactly if the insert,
where it has slots enough to go through, uses more than there are, and
otherwise it leads to the same nodes under the same root. -/
theorem reachable_faultless {x : Index} (h : x.Reachable) :
    (∀ keys : List Key, minKey ∉ keys →
      ∃ x' events, x.remove keys = .ok (x', events) ∧
      x'.tree.store.allocated = x.tree.store.allocated) ∧
    ∀ batch : List Pair, minKey ∉ batch.map (·.key) →
      ((∃ x' events, x.insert batch = .ok (x', events)) ∨
        x.insert batch =
          .error (.aborted (.storeFull x.config.storeCapacity))) ∧
      ∀ y : Index, x.Twin y → ∀ y' events, y.insert batch = .ok (y', events) →
        (x.insert batch =
          .error (.aborted (.storeFull x.config.storeCapacity)) ↔
          x.config.storeCapacity < y'.tree.store.allocated) ∧
        ∀ x' events', x.insert batch = .ok (x', events') →
          x'.tree.store.nodes = y'.tree.store.nodes ∧
            x'.tree.root = y'.tree.root := by
  obtain ⟨t, r⟩ := h.exists_stores
  refine ⟨?_, fun batch hb => ⟨?_, ?_⟩⟩
  · intro keys hk
    obtain ⟨x', events, hx, -, -, hall, -⟩ := r.remove_eq_ok hk
    exact ⟨x', events, hx, hall⟩
  · rcases r.insert_cases hb with ⟨x', events, hx, -⟩ | hfull
    · exact Or.inl ⟨x', events, hx⟩
    · exact Or.inr hfull
  · intro y w y' events hy
    rcases w.insert_follows hb hy with ⟨hfull, hlt⟩ | ⟨x', events', hx, w'⟩
    · refine ⟨⟨fun _ => hlt, fun _ => hfull⟩, ?_⟩
      intro x' events' hx
      rw [hx] at hfull
      cases hfull
    · have hle : ¬ x.config.storeCapacity < y'.tree.store.allocated := by
        rw [← w'.store.allocated_eq, ← w'.store.capacity_eq]
        exact Nat.not_lt.mpr x'.tree.store.allocated_le
      refine ⟨⟨?_, fun hlt => absurd hlt hle⟩, ?_⟩
      · intro hfull
        rw [hx] at hfull
        cases hfull
      · intro x'' events'' hx'
        rw [hx] at hx'
        cases hx'
        exact ⟨w'.store.nodes_eq, w'.root_eq⟩

/-- Two slots are too few for the split of a full root, which takes three. -/
theorem reachable_faultless_two_slots :
    ∃ x y : Index, x.Reachable ∧ x.Twin y ∧
      (∃ y' events, y.insert [⟨15, 0⟩] = .ok (y', events) ∧
        y'.tree.store.allocated = 3) ∧
      x.config.storeCapacity = 2 ∧
      x.insert [⟨15, 0⟩] =
        .error (.aborted (.storeFull x.config.storeCapacity)) := by
  let small : Config := { storeCapacity := 2 }
  let large : Config := { storeCapacity := 8 }
  obtain ⟨x, _, hx⟩ := exists_ofConfig
    (show small.Valid from ⟨by decide, by decide, by decide, by decide⟩)
  obtain ⟨y, _, hy⟩ := exists_ofConfig
    (show large.Valid from ⟨by decide, by decide, by decide, by decide⟩)
  have hconfig : observe small (oneByOne 15) (·.config) = some small ∧
      observe large (oneByOne 15) (·.config) = some large := by decide +kernel
  have hsame : observe small (oneByOne 15)
      (fun z => (z.tree.root, z.tree.store.nodes)) =
        observe large (oneByOne 15)
          (fun z => (z.tree.root, z.tree.store.nodes)) := by decide +kernel
  have hcapacity : observe small (oneByOne 15) (·.tree.store.capacity) =
      some 2 := by
    decide +kernel
  have hinsert : observe large (oneByOne 15)
      (fun z => (z.insert [⟨15, 0⟩]).toOption.map (·.1.tree.store.allocated)) =
        some (some 3) := by
    decide +kernel
  simp only [observe, hx, hy, Option.some.injEq, Prod.mk.injEq]
    at hconfig hsame hcapacity hinsert
  have hr := (Reachable.new hx).after (oneByOne 15)
  have hw : (x.after (oneByOne 15)).Twin (y.after (oneByOne 15)) :=
    ⟨by rw [hconfig.1, hconfig.2], by rw [hconfig.1, hconfig.2],
      hsame.1, hsame.2, by rw [hcapacity, hconfig.1]⟩
  cases hy' : (y.after (oneByOne 15)).insert [⟨15, 0⟩] with
  | error f =>
      rw [hy'] at hinsert
      cases hinsert
  | ok q =>
      rw [hy'] at hinsert
      have hall : q.1.tree.store.allocated = 3 := Option.some.inj hinsert
      refine ⟨_, _, hr, hw, ⟨q.1, q.2, hy', hall⟩, by rw [hconfig.1], ?_⟩
      refine (((reachable_faultless hr).2 [⟨15, 0⟩] (by decide)).2 _ hw q.1
        q.2 hy').1.mpr ?_
      rw [hconfig.1, hall]
      decide

end Index

end LevelIndex
