import LevelIndex.Index
import LevelIndex.Proofs.Blocks
import LevelIndex.Proofs.Insert.Climb
import LevelIndex.Proofs.Remove.Climb
import LevelIndex.Proofs.Search
import LevelIndex.Proofs.Table

/-!
# Indexes that store a table

`x.Stores t` says that the index `x` is in order and stores what the table `t`
does. It fixes every answer of the index (`Stores.answersAs`). A new index
stores the empty table, an insert that goes through leads to an index that
stores the table after the insert (`Stores.insert_cases`), and so does every
removal (`Stores.remove_eq_ok`).

An index stores one table only, so what it stores can be said without naming the
rows of its tree.

A batch is put together from three things that the modules below provide:

- every key has a leaf whose range holds it, and that leaf is found, whoever
  looks for it (`exists_leafOf`);
- the edits sent there are a batch that may rise (`exists_rising`) or that goes
  through (`exists_falling`), which is what the invariants of a batch in flight
  start from;
- what a course comes to is what the batch comes to (`climb_eq_ok`,
  `climb_eq_error`), and the other way round (`ending_of_climb`).
-/

namespace LevelIndex

namespace Index

/-- All questions about what the index stores are answered, and as the table
answers them. -/
structure AnswersAs (x : Index) (t : Table) : Prop where
  exists_search : ∀ key, ∃ hit, x.tree.search key = .ok hit
  predecessor_eq : ∀ keys, x.predecessor keys = .ok (keys.map t.predecessor)
  get_eq : ∀ keys, x.get keys = .ok (keys.map t.get?)
  length_eq : x.length = .ok t.length
  items_eq : x.items = .ok t.items

/-- A well-formed tree with the sentinel answers as the table of its pairs. Only
the leaves and the first key of the root matter: no level has to be half full,
so this holds of trees that the checker accepts, too. -/
theorem answersAs_of_leaves {x : Index} {row : Nat → List Handle} {height : Nat}
    (w : x.tree.WellFormed row height) {items : List Pair}
    (hleaves : x.tree.store.contents (row 0) = leafCells items)
    (hroot : (x.tree.store.node x.tree.root).firstKey = minKey) :
    x.AnswersAs ⟨items⟩ := by
  have hsorted : Table.Sorted ⟨items⟩ := by
    rw [Table.Sorted, ← hleaves]
    exact w.increasing_leaves
  have hsearch : ∀ key, ∃ leaf c, x.tree.search key = .ok ⟨leaf, c⟩ ∧
      floor key (leafCells items) = some c := by
    intro key
    obtain ⟨leaf, c, hs, -, hfloor, -⟩ := w.search_eq (hroot ▸ minKey_le key)
    exact ⟨leaf, c, hs, hleaves ▸ hfloor⟩
  refine ⟨fun key => ?_, fun keys => ?_, fun keys => ?_, ?_, ?_⟩
  · obtain ⟨leaf, c, hs, -⟩ := hsearch key
    exact ⟨_, hs⟩
  · rw [predecessor, mapBlocks_eq_mapM]
    refine mapM_eq_ok fun key _ => ?_
    obtain ⟨leaf, c, hs, hfloor⟩ := hsearch key
    rw [hs]
    exact Table.pair_of_floor hsorted hfloor
  · rw [get, mapBlocks_eq_mapM]
    refine mapM_eq_ok fun key _ => ?_
    obtain ⟨leaf, c, hs, hfloor⟩ := hsearch key
    rw [hs]
    exact congrArg Except.ok (Table.valueAt?_of_floor hsorted hfloor)
  · exact w.walkable.length_eq (by rw [hleaves]; simp [leafCells, Table.length])
  · exact w.walkable.items_eq hleaves hsorted

/-- The index is in order and stores what the table does. -/
structure Stores (x : Index) (t : Table) : Prop where
  exists_intact : ∃ row height, x.tree.Intact row height t.items
  capacity_eq : x.tree.store.capacity = x.config.storeCapacity

theorem exists_ofConfig {config : Config} (hc : config.Valid) :
    ∃ x events, ofConfig config = .ok (x, events) := by
  have hdefect := Config.defect?_eq_none_iff.mpr hc
  refine ⟨⟨config, .fresh config.storeCapacity hc.storeCapacity_pos, hc⟩,
    [.indexCreated config.workers config.storeCapacity config.serialHeight], ?_⟩
  unfold ofConfig
  split
  · next d hd => rw [hdefect] at hd; cases hd
  · rfl

/-- An index is made of a valid configuration only, and it starts from a fresh
tree with as many slots as the configuration says. -/
theorem ofConfig_eq_ok {config : Config} {x : Index} {events : List Event}
    (h : ofConfig config = .ok (x, events)) :
    ∃ hc : config.Valid, x.config = config ∧
      x.tree = .fresh config.storeCapacity hc.storeCapacity_pos := by
  unfold ofConfig at h
  split at h
  · cases h
  · next hd =>
      cases h
      exact ⟨Config.defect?_eq_none_iff.mp hd, rfl, rfl⟩

namespace Stores

variable {x : Index} {t : Table}

theorem sorted (r : x.Stores t) : t.Sorted := by
  obtain ⟨row, height, i⟩ := r.exists_intact
  exact i.increasing_leafCells

theorem of_config {config : Config} {events : List Event}
    (h : ofConfig config = .ok (x, events)) :
    x.config = config ∧ x.Stores .empty := by
  obtain ⟨hc, rfl, htree⟩ := ofConfig_eq_ok h
  refine ⟨rfl, ⟨fun _ => [.first], 0, ?_⟩, ?_⟩
  · rw [htree]
    exact Tree.intact_fresh hc.storeCapacity_pos hc.storeCapacity_lt
  · rw [htree]
    rfl

/-! ## Answers -/

theorem answersAs (r : x.Stores t) : x.AnswersAs t := by
  obtain ⟨row, height, i⟩ := r.exists_intact
  exact answersAs_of_leaves i.wellFormed i.leaves i.firstKey_root

theorem predecessor_eq (r : x.Stores t) (keys : List Key) :
    x.predecessor keys = .ok (keys.map t.predecessor) :=
  r.answersAs.predecessor_eq keys

theorem get_eq (r : x.Stores t) (keys : List Key) :
    x.get keys = .ok (keys.map t.get?) :=
  r.answersAs.get_eq keys

theorem containsKey_eq (r : x.Stores t) (key : Key) :
    x.containsKey key = .ok (t.get? key).isSome := by
  rw [containsKey, r.get_eq]
  simp

theorem length_eq (r : x.Stores t) : x.length = .ok t.length :=
  r.answersAs.length_eq

theorem isEmpty_eq (r : x.Stores t) : x.isEmpty = .ok t.isEmpty := by
  obtain ⟨row, height, i⟩ := r.exists_intact
  exact i.isEmpty_eq

theorem items_eq (r : x.Stores t) : x.items = .ok t.items :=
  r.answersAs.items_eq

end Stores

/-! ## Sending a batch to the leaves -/

theorem exists_leafOf {x : Index} {row : Nat → List Handle} {height : Nat}
    {items : List Pair} (i : x.tree.Intact row height items) :
    ∃ leafOf : Key → Handle,
      (∀ key, ∃ first, floor key (x.tree.store.links (row 0)) =
        some ⟨first, .child (leafOf key)⟩) ∧
      ∀ keys, x.locate keys = .ok (keys.map leafOf) := by
  choose leafOf c hsearch _ _ hfirst using i.search_eq
  refine ⟨leafOf, hfirst, ?_⟩
  intro keys
  rw [locate, mapBlocks_eq_mapM]
  refine mapM_eq_ok ?_
  intro key _
  rw [hsearch key]
  rfl

section Climb

variable {x : Index} {e : Engine Tree} {keys : List Key}
  {f : List Handle → List Edit} {leaves : List Handle}

theorem climb_nil : x.climb e [] f = .ok (x, []) := rfl

/-- A batch comes to what its course comes to. One without keys has no course,
but then it has no edits either, and the course of no edits ends where it
starts. -/
theorem climb_eq_ok (hnil : keys = [] → f leaves = [])
    (hl : x.locate keys = .ok leaves) {tree : Tree}
    (h : (e.run x.pool x.tree (f leaves)).ending = .ok tree) :
    ∃ events, x.climb e keys f = .ok ({ x with tree }, events) := by
  by_cases hne : keys = []
  · rw [hnil hne, Engine.run_nil] at h
    obtain rfl : x.tree = tree := Except.ok.inj h
    exact ⟨[], hne ▸ climb_nil⟩
  · let course := e.run x.pool x.tree (f leaves)
    refine ⟨.leavesLocated keys.length :: course.events e.name x.pool, ?_⟩
    rw [climb, if_neg (by simpa using hne), hl]
    show ((e.run x.pool x.tree (f leaves)).ending.mapError Failure.aborted >>=
      fun _ => _) = _
    rw [h]
    rfl

theorem climb_eq_error (hnil : keys = [] → f leaves = [])
    (hl : x.locate keys = .ok leaves) {fault : Fault}
    (h : (e.run x.pool x.tree (f leaves)).ending = .error fault) :
    x.climb e keys f = .error (.aborted fault) := by
  by_cases hne : keys = []
  · rw [hnil hne, Engine.run_nil] at h
    cases h
  · rw [climb, if_neg (by simpa using hne), hl]
    show ((e.run x.pool x.tree (f leaves)).ending.mapError Failure.aborted >>=
      fun _ => _) = _
    rw [h]
    rfl

theorem ending_of_climb (hnil : keys = [] → f leaves = [])
    (hl : x.locate keys = .ok leaves) {x' : Index} {events : List Event}
    (h : x.climb e keys f = .ok (x', events)) :
    (e.run x.pool x.tree (f leaves)).ending = .ok x'.tree := by
  cases hend : (e.run x.pool x.tree (f leaves)).ending with
  | ok tree =>
      obtain ⟨events', hx⟩ := climb_eq_ok hnil hl hend
      rw [hx] at h
      cases h
      rfl
  | error fault =>
      rw [climb_eq_error hnil hl hend] at h
      cases h

end Climb

/-! ## Batches that change the index -/

/-- The edits that an insert sends to the leaves. -/
def insertEdits (pairs : List Pair) (leaves : List Handle) : List Edit :=
  pairs.zipWith (fun p leaf => .insert p.key (.value p.value) leaf) leaves

theorem insertEdits_map (pairs : List Pair) (leafOf : Key → Handle) :
    insertEdits pairs ((pairs.map (·.key)).map leafOf) =
      pairs.map fun p => .insert p.key (.value p.value) (leafOf p.key) := by
  rw [insertEdits, List.map_map, List.zipWith_map_right, List.zipWith_self]
  rfl

theorem map_cell_insertEdits (pairs : List Pair) (leafOf : Key → Handle) :
    (insertEdits pairs ((pairs.map (·.key)).map leafOf)).map Edit.cell =
      pairs.map Pair.cell := by
  rw [insertEdits_map, List.map_map]
  rfl

theorem insertEdits_of_nil {pairs : List Pair} (h : pairs.map (·.key) = [])
    (leaves : List Handle) : insertEdits pairs leaves = [] := by
  rw [List.map_eq_nil_iff.mp h, insertEdits, List.zipWith_nil_left]

theorem removeEdits_map (keys : List Key) (leafOf : Key → Handle) :
    keys.zipWith Edit.remove (keys.map leafOf) =
      keys.map fun k => Edit.remove k (leafOf k) := by
  rw [List.zipWith_map_right, List.zipWith_self]

theorem insert_eq (x : Index) {batch : List Pair}
    (hb : minKey ∉ batch.map (·.key)) :
    x.insert batch = x.climb Insert.engine ((normalForm batch).map (·.key))
      (insertEdits (normalForm batch)) := by
  rw [insert, rejectReserved, require_pos hb]
  rfl

theorem remove_eq (x : Index) {keys : List Key} (hk : minKey ∉ keys) :
    x.remove keys = x.climb Remove.engine (sortedKeys keys)
      fun leaves => (sortedKeys keys).zipWith Edit.remove leaves := by
  rw [remove, rejectReserved, require_pos hk]
  rfl

/-- The course of an insert, from the leaves that its keys were located in. -/
def insertCourse (x : Index) (batch : List Pair) (leaves : List Handle) :
    Course Tree :=
  Insert.engine.run x.pool x.tree (insertEdits (normalForm batch) leaves)

/-- The course of a removal, from the leaves that its keys were located in. -/
def removeCourse (x : Index) (keys : List Key) (leaves : List Handle) :
    Course Tree :=
  Remove.engine.run x.pool x.tree ((sortedKeys keys).zipWith Edit.remove leaves)

section Course

variable {x : Index} {leaves : List Handle} {tree : Tree}

theorem insert_of_course {batch : List Pair} (hb : minKey ∉ batch.map (·.key))
    (hl : x.locate ((normalForm batch).map (·.key)) = .ok leaves)
    (h : (x.insertCourse batch leaves).ending = .ok tree) :
    ∃ events, x.insert batch = .ok ({ x with tree }, events) := by
  rw [insert_eq x hb]
  exact climb_eq_ok (fun hnil => insertEdits_of_nil hnil leaves) hl h

theorem insert_of_course_error {batch : List Pair}
    (hb : minKey ∉ batch.map (·.key))
    (hl : x.locate ((normalForm batch).map (·.key)) = .ok leaves)
    {fault : Fault} (h : (x.insertCourse batch leaves).ending = .error fault) :
    x.insert batch = .error (.aborted fault) := by
  rw [insert_eq x hb]
  exact climb_eq_error (fun hnil => insertEdits_of_nil hnil leaves) hl h

theorem remove_of_course {keys : List Key} (hk : minKey ∉ keys)
    (hl : x.locate (sortedKeys keys) = .ok leaves)
    (h : (x.removeCourse keys leaves).ending = .ok tree) :
    ∃ events, x.remove keys = .ok ({ x with tree }, events) := by
  rw [remove_eq x hk]
  exact climb_eq_ok (e := Remove.engine) (fun hnil => by simp [hnil]) hl h

theorem ending_of_insert {batch : List Pair} (hb : minKey ∉ batch.map (·.key))
    (hl : x.locate ((normalForm batch).map (·.key)) = .ok leaves) {x' : Index}
    {events : List Event} (h : x.insert batch = .ok (x', events)) :
    (x.insertCourse batch leaves).ending = .ok x'.tree := by
  rw [insert_eq x hb] at h
  exact ending_of_climb (fun hnil => insertEdits_of_nil hnil leaves) hl h

theorem ending_of_remove {keys : List Key} (hk : minKey ∉ keys)
    (hl : x.locate (sortedKeys keys) = .ok leaves) {x' : Index}
    {events : List Event} (h : x.remove keys = .ok (x', events)) :
    (x.removeCourse keys leaves).ending = .ok x'.tree := by
  rw [remove_eq x hk] at h
  exact ending_of_climb (e := Remove.engine) (fun hnil => by simp [hnil]) hl h

end Course

section Batch

variable {x : Index} {t : Table} {row : Nat → List Handle} {height : Nat}
  (i : x.tree.Intact row height t.items)
include i

/-- The leaves of the keys of an insert are found, and the edits sent there are
a batch that may rise: routed to the nodes in whose range their keys lie, with
the pairs of the table after the insert as what the leaves are to hold. -/
theorem exists_rising {batch : List Pair} (hb : minKey ∉ batch.map (·.key)) :
    ∃ leaves, x.locate ((normalForm batch).map (·.key)) = .ok leaves ∧
      Insert.Rising x.tree row height 0 (t.insert batch).items
        (insertEdits (normalForm batch) leaves) := by
  obtain ⟨leafOf, hleaf, hlocate⟩ := exists_leafOf i
  refine ⟨_, hlocate _, ?_⟩
  have hcells := map_cell_insertEdits (normalForm batch) leafOf
  rw [insertEdits_map] at hcells ⊢
  refine .of_intact i ?_ ?_ ?_ ?_
  · rw [Edit.keys, List.map_map]
    exact ascending_normalForm batch
  · intro e he
    obtain ⟨p, -, rfl⟩ := List.mem_map.mp he
    exact Edit.merges_insert _ _ _
  · intro e he
    obtain ⟨p, -, rfl⟩ := List.mem_map.mp he
    exact hleaf p.key
  · rw [hcells]
    exact Table.leafCells_insert i.increasing_leafCells fun p hp h =>
      hb (h ▸ List.mem_map_of_mem hp)

/-- The leaves of the keys of a removal are found, and the edits sent there are
a batch that goes through. Its edits drop keys and rename none, so they are
paced. -/
theorem exists_falling {keys : List Key} (hk : minKey ∉ keys) :
    ∃ leaves, x.locate (sortedKeys keys) = .ok leaves ∧
      Remove.Falling x.tree row height 0 (t.remove keys).items
        ((sortedKeys keys).zipWith Edit.remove leaves) := by
  obtain ⟨leafOf, hleaf, hlocate⟩ := exists_leafOf i
  refine ⟨_, hlocate _, ?_⟩
  have hkeys : Edit.keys ((sortedKeys keys).map fun k =>
      Edit.remove k (leafOf k)) = sortedKeys keys := by
    rw [Edit.keys, List.map_map]
    exact List.map_id _
  have hspec : ∀ e ∈ (sortedKeys keys).map fun k => Edit.remove k (leafOf k),
      e.flags.remove = true ∧ ∃ first,
        floor e.key (x.tree.store.links (row 0)) =
          some ⟨first, .child e.target⟩ := by
    intro e he
    obtain ⟨k, -, rfl⟩ := List.mem_map.mp he
    exact ⟨rfl, hleaf k⟩
  rw [removeEdits_map]
  exact .of_intact i (hkeys.symm ▸ ascending_sortedKeys keys)
    (fun e he => Or.inl (hspec e he).1) (fun e he => (hspec e he).2)
    (Table.sorted_remove i.increasing_leafCells keys)
    (Table.leafCells_remove hk (fun k => by rw [hkeys, mem_sortedKeys])
      fun e he => (hspec e he).1)
    (Remove.paced_of_remove i.increasing_leafCells fun e he => (hspec e he).1)

theorem insert_cases {batch : List Pair} (hb : minKey ∉ batch.map (·.key)) :
    (∃ tree events row' height',
      x.insert batch = .ok ({ x with tree }, events) ∧
      tree.Intact row' height' (t.insert batch).items ∧
      x.tree.Extends row height tree row' height') ∨
    x.insert batch =
      .error (.aborted (.storeFull x.tree.store.capacity)) := by
  obtain ⟨leaves, hlocate, hr⟩ := exists_rising i hb
  have hyields := hr.run_yields x.pool
  cases hend : (x.insertCourse batch leaves).ending with
  | ok tree =>
      obtain ⟨row', height', i', hext⟩ := hyields.of_ok hend
      obtain ⟨events, hinsert⟩ := insert_of_course hb hlocate hend
      exact Or.inl ⟨tree, events, row', height', hinsert, i', hext⟩
  | error f =>
      obtain rfl : f = .storeFull x.tree.store.capacity := hyields.of_error hend
      exact Or.inr (insert_of_course_error hb hlocate hend)

theorem remove_eq_ok {keys : List Key} (hk : minKey ∉ keys) :
    ∃ tree events row', x.remove keys = .ok ({ x with tree }, events) ∧
      x.tree.Thins row tree row' ∧
      tree.Intact row' height (t.remove keys).items := by
  obtain ⟨leaves, hlocate, hr⟩ := exists_falling i hk
  obtain ⟨tree, row', hend, hthin, i'⟩ := hr.run_eq_ok x.pool
  obtain ⟨events, hremove⟩ := remove_of_course hk hlocate hend
  exact ⟨tree, events, row', hremove, hthin, i'⟩

end Batch

namespace Stores

variable {x : Index} {t : Table}

theorem insert_cases (r : x.Stores t) {batch : List Pair}
    (hb : minKey ∉ batch.map (·.key)) :
    (∃ x' events, x.insert batch = .ok (x', events) ∧ x'.config = x.config ∧
      x'.Stores (t.insert batch)) ∨
    x.insert batch = .error (.aborted (.storeFull x.config.storeCapacity)) := by
  obtain ⟨row, height, i⟩ := r.exists_intact
  rw [← r.capacity_eq]
  refine (Index.insert_cases i hb).imp_left ?_
  rintro ⟨tree, events, row', height', h, i', hext⟩
  exact ⟨_, events, h, rfl, ⟨row', height', i'⟩,
    hext.capacity_eq.trans r.capacity_eq⟩

theorem remove_eq_ok (r : x.Stores t) {keys : List Key} (hk : minKey ∉ keys) :
    ∃ x' events, x.remove keys = .ok (x', events) ∧ x'.config = x.config ∧
      x'.tree.root = x.tree.root ∧
        x'.tree.store.allocated = x.tree.store.allocated ∧
      x'.Stores (t.remove keys) := by
  obtain ⟨row, height, i⟩ := r.exists_intact
  obtain ⟨tree, events, row', h, hthin, i'⟩ := Index.remove_eq_ok i hk
  exact ⟨_, events, h, rfl, hthin.root_eq, hthin.allocated_eq,
    ⟨row', height, i'⟩, hthin.capacity_eq.trans r.capacity_eq⟩

end Stores

end Index

end LevelIndex
