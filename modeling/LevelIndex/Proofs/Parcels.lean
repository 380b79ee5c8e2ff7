import LevelIndex.Proofs.Batch.Parcels
import LevelIndex.Proofs.Workers

/-!
# One rewrite for each node of a level

`Tended` says of a level and the edits that have come up to it that each node is
dealt with once: the edits of a node fall in its range, the runs follow the
chain, and wherever a crew has come to, a run that waits finds its node as the
batch has found it and rewrites no other.

Nothing but the invariants of a batch in flight is needed for it. They hold at
every level a batch may come to, in whatever order the levels below were carried
out (`Insert.Rising.climbs`, `Remove.Falling.climbs`), and at each of them the
edits fall into a run for each node (`Store.Sited`), so what is left to say is
what one run does to the other nodes of its level (`exists_tended`). A run
writes to its node, to slots not in use and to the children that it hands over,
and these are on the level below. Over the old root there are no nodes yet, and
all edits are aimed at null.
-/

namespace LevelIndex

theorem Store.Sited.aims_sublist {s : Store} {row : List Handle}
    {edits : List Edit} {sites : List Site} (h : s.Sited row edits sites)
    (hnd : row.Nodup) : ((Edit.runs edits).map Edit.aim).Sublist row := by
  have haims : (Site.runs sites).map Edit.aim =
      ((Site.runs sites).map Site.ofRun).map (·.handle) := by
    rw [List.map_map]
    rfl
  rw [← h.edits_eq, Site.runs_edits (h.row_eq ▸ hnd) h.aimed, haims,
    Site.map_ofRun h.aimed, ← h.row_eq]
  exact List.filter_sublist.map _

/-- The nodes of a level, and the edits that are aimed at them. -/
structure Tended (work : Nat → Tree → List Edit → Except Fault (Step Tree))
    (t : Tree) (height : Nat) (edits : List Edit)
    (nodes : List (Handle × Node)) : Prop where
  nodes_eq : t.levelNodes height = .ok nodes
  nodup : (nodes.map (·.1)).Nodup
  /-- The range of a node runs from its first key up to that of its right
  neighbour. -/
  routed : ∀ e ∈ edits, ∃ q ∈ nodes, q.1 = e.target ∧ q.2.firstKey ≤ e.key ∧
    ∀ n, t.store.get? q.2.right = some n → e.key < n.firstKey
  /-- The runs follow the chain. -/
  in_order : ((Edit.runs edits).map Edit.aim).Sublist (nodes.map (·.1))
  /-- Whatever was carried out before, a run finds its node untouched, -/
  found : ∀ c, Crew.Reaches (work height) t (Edit.runs edits) c →
    ∀ hand ∈ c.hands, ∀ run ∈ hand.waiting, ∀ q ∈ nodes,
      q.1 = Edit.aim run → c.state.store.get? q.1 = some q.2
  /-- and of the nodes of the level it rewrites no other. -/
  alone : ∀ c, Crew.Reaches (work height) t (Edit.runs edits) c →
    ∀ hand ∈ c.hands, ∀ run ∈ hand.waiting, ∀ step,
      work height c.state run = .ok step → ∀ q ∈ nodes, q.1 ≠ Edit.aim run →
        step.state.store.get? q.1 = c.state.store.get? q.1

/-- What a run does to the nodes of its level is all that has to be shown. That
the runs follow the chain, and that their keys fall in the ranges of their
nodes, is how the edits are sited. -/
theorem exists_tended
    {work : Nat → Tree → List Edit → Except Fault (Step Tree)} {t : Tree}
    {row : Nat → List Handle} {height gap : Nat} {edits : List Edit}
    {sites : List Site} (w : t.Walkable row height) (hg : gap ≤ height)
    (hr : t.store.Routed (row gap) edits)
    (hs : t.store.Sited (row gap) edits sites)
    (hturn : ∀ c, Crew.Reaches (work gap) t (Edit.runs edits) c →
      t.store.allocated ≤ c.state.store.allocated ∧
      ∀ hand ∈ c.hands, ∀ run ∈ hand.waiting,
        c.state.store.node (Edit.aim run) = t.store.node (Edit.aim run) ∧
        ∀ step, work gap c.state run = .ok step →
          c.state.store.allocated ≤ step.state.store.allocated ∧
          ∀ k ∈ row gap, k ≠ Edit.aim run →
            step.state.store.node k = c.state.store.node k) :
    ∃ nodes, Tended work t gap edits nodes := by
  have hrow := w.isRow gap hg
  have hhandles : ((row gap).map fun h => (h, t.store.node h)).map (·.1) =
      row gap := by
    rw [List.map_map]
    exact List.map_id _
  refine ⟨_, w.levelNodes_eq hg, by rw [hhandles]; exact hrow.nodup, ?_, ?_, ?_,
    ?_⟩
  · intro e he
    obtain ⟨hh, hfloor⟩ := hr.floor_eq he
    exact ⟨_, List.mem_map_of_mem hh, rfl, (hrow.floor_links_iff hh).mp hfloor⟩
  · rw [hhandles]
    exact hs.aims_sublist hrow.nodup
  · intro c hc hand hhand run hrun q hq haim
    obtain ⟨h, hh, rfl⟩ := List.mem_map.mp hq
    obtain ⟨hle, hall⟩ := hturn c hc
    have hnode := (hall hand hhand run hrun).1
    rw [← show h = Edit.aim run from haim] at hnode
    rw [Store.get?_eq_some_node
      (Store.contains_of_allocated_le hle (hrow.live h hh)), hnode]
  · intro c hc hand hhand run hrun step hstep q hq hne
    obtain ⟨h, hh, rfl⟩ := List.mem_map.mp hq
    obtain ⟨hle, hall⟩ := hturn c hc
    obtain ⟨hle', hnode⟩ := (hall hand hhand run hrun).2 step hstep
    have hlive := Store.contains_of_allocated_le hle (hrow.live h hh)
    rw [Store.get?_eq_some_node (Store.contains_of_allocated_le hle' hlive),
      Store.get?_eq_some_node hlive, hnode h hh hne]

/-! ## Levels of an insert -/

namespace Insert.Rising

variable {t : Tree} {row : Nat → List Handle} {height gap : Nat}
  {items : List Pair} {edits : List Edit}

theorem parcelled (r : Rising t row height gap items edits) :
    Parcelled gap edits := by
  refine .of_clustered gap r.ascending r.clustered ?_
  by_cases hg : gap ≤ height
  · obtain ⟨sites, hsites⟩ := r.exists_sites hg
    have hnd := (r.level gap hg).nodup
    exact hnd.sublist (hsites.aims_sublist hnd)
  · by_cases hne : edits = []
    · rw [hne]
      exact List.nodup_nil
    · rw [Edit.runs_eq_singleton hne (r.above (Nat.lt_of_not_le hg)).1]
      exact List.nodup_singleton _

theorem tended (r : Rising t row height gap items edits) (hg : gap ≤ height) :
    ∃ nodes, Tended rewrite t gap edits nodes := by
  obtain ⟨sites, hsites⟩ := r.exists_sites hg
  have hready := (r.ready hg hsites).2
  refine exists_tended r.walkable hg (r.within hg).1 hsites fun c hc => ?_
  rw [← hsites.edits_eq,
    Site.runs_edits (hsites.row_eq ▸ (r.level gap hg).nodup) hsites.aimed] at hc
  obtain ⟨⟨-, fresh, h⟩, hwait⟩ := Midway.of_reaches hready hc
  refine ⟨h.settled.frame.allocated, fun hand hhand run hrun => ?_⟩
  obtain ⟨hmem, hnew⟩ := hwait hand hhand run hrun
  obtain ⟨hne, a, ha, rfl⟩ := Site.mem_runs.mp hmem
  have haim : Edit.aim a.run = a.handle :=
    congrArg Site.handle (hready.ofRun_eq ha hne)
  have hd := h.done_subset hready
  have hn := not_mem_done sites hne hnew
  rw [haim]
  refine ⟨h.settled.node_eq hready hd ha hn, fun step hstep => ?_⟩
  obtain ⟨-, new, hlaid, -⟩ :=
    (settle_run hready h.settled hd ha hn hne).of_ok hstep
  refine ⟨hlaid.frame.allocated, fun k hk hka => ?_⟩
  obtain ⟨b, hb, rfl⟩ := List.mem_map.mp (hsites.row_eq ▸ hk)
  refine hlaid.frame.node (h.settled.frame.contains (hready.live b hb))
    (by simpa using hka) ?_
  rw [flatten_chunks]
  refine mt List.mem_cons.mp (not_or.mpr ⟨hka, fun hm => ?_⟩)
  exact hready.apart b.handle (Ready.mem_children ha hm)
    (List.mem_map_of_mem hb)

end Insert.Rising

/-! ## Levels of a removal -/

namespace Remove.Falling

variable {t : Tree} {row : Nat → List Handle} {height gap : Nat}
  {items : List Pair} {edits : List Edit}

theorem parcelled (r : Falling t row height gap items edits) :
    Parcelled gap edits := by
  obtain ⟨sites, hsites⟩ := r.exists_sites
  have hnd := (r.level gap r.within).nodup
  exact .of_clustered gap r.ascending r.clustered
    (hnd.sublist (hsites.aims_sublist hnd))

theorem tended (r : Falling t row height gap items edits) :
    ∃ nodes, Tended rewrite t gap edits nodes := by
  obtain ⟨sites, hsites⟩ := r.exists_sites
  have hw := r.workable hsites
  refine exists_tended r.walkable r.within r.routed hsites fun c hc => ?_
  rw [← hsites.edits_eq, Site.runs_edits
    (hsites.row_eq ▸ (r.level gap r.within).nodup) hsites.aimed] at hc
  obtain ⟨h, hwait⟩ := Carried.of_reaches hw hc
  refine ⟨Nat.le_of_eq h.rewritten.allocated_eq.symm,
    fun hand hhand run hrun => ?_⟩
  obtain ⟨hmem, hnew⟩ := hwait hand hhand run hrun
  obtain ⟨hne, a, ha, rfl⟩ := Site.mem_runs.mp hmem
  have haim : Edit.aim a.run = a.handle :=
    congrArg Site.handle ((hw.aimed a ha).ofRun_eq hne)
  have hsame := h.rewritten.other_eq _ (h.handle_not_mem hw ha hnew)
  rw [haim]
  refine ⟨hsame, fun step hstep => ?_⟩
  obtain ⟨step', hstep', -, -, hall, hnode, -⟩ :=
    rewrite_site hw ha hne h.rewritten.allocated_eq hsame
  obtain rfl := Except.ok.inj (hstep.symm.trans hstep')
  exact ⟨Nat.le_of_eq hall.symm, fun k _ hka => by rw [hnode, if_neg hka]⟩

end Remove.Falling

/-! ## All levels of a batch -/

namespace Index

variable {x : Index}

theorem Reachable.insertCourse_climbs (h : x.Reachable) {batch : List Pair}
    (hb : minKey ∉ batch.map (·.key)) {leaves : List Handle}
    (hl : x.locate ((normalForm batch).map (·.key)) = .ok leaves) :
    ∀ r ∈ (x.insertCourse batch leaves).levels,
      Insert.engine.Climbs Insert.rewrite 0 x.tree
        (insertEdits (normalForm batch) leaves) r.height r.before r.edits := by
  by_cases hne : batch = []
  · intro r hr
    rw [hne, insertCourse, insertEdits_of_nil (by simp [normalForm, keepLast]),
      Engine.run_nil] at hr
    cases hr
  · obtain ⟨leaves', hl', hfree⟩ := h.insert_orderFree hne hb
    obtain rfl := Except.ok.inj (hl.symm.trans hl')
    exact fun r hr => (hfree.levels x.pool r hr).1

theorem Reachable.removeCourse_climbs (h : x.Reachable) {keys : List Key}
    (hk : minKey ∉ keys) {leaves : List Handle}
    (hl : x.locate (sortedKeys keys) = .ok leaves) :
    ∀ r ∈ (x.removeCourse keys leaves).levels,
      Remove.engine.Climbs Remove.rewrite 0 x.tree
        ((sortedKeys keys).zipWith Edit.remove leaves) r.height r.before
        r.edits := by
  by_cases hne : keys = []
  · intro r hr
    rw [hne, removeCourse, show sortedKeys [] = [] by
      simp [sortedKeys, sortedKeys.dedup], List.zipWith_nil_left,
      Engine.run_nil] at hr
    cases hr
  · obtain ⟨leaves', hl', hfree⟩ := h.remove_orderFree hne hk
    obtain rfl := Except.ok.inj (hl.symm.trans hl')
    exact fun r hr => (hfree.levels x.pool r hr).1

/-- **One rewrite for each node.** At every level that a batch comes to, in
whatever order the levels below were carried out, the edits are cut so that each
target has one run and each run one worker, and the nodes of the level are dealt
with once. Only an insert gets over the old root; there all edits are for a root
to come. -/
theorem rewrites_each_node_once (h : x.Reachable) :
    ∃ height, x.tree.height = .ok height ∧
    (∀ batch : List Pair, minKey ∉ batch.map (·.key) →
      ∃ leaves, x.locate ((normalForm batch).map (·.key)) = .ok leaves ∧
        (∀ r ∈ (x.insertCourse batch leaves).levels,
          Insert.engine.Climbs Insert.rewrite 0 x.tree
            (insertEdits (normalForm batch) leaves) r.height r.before
            r.edits) ∧
        ∀ gap t edits, Insert.engine.Climbs Insert.rewrite 0 x.tree
            (insertEdits (normalForm batch) leaves) gap t edits →
          Parcelled gap edits ∧
          (gap ≤ height → ∃ nodes, Tended Insert.rewrite t gap edits nodes) ∧
          (height < gap → ∀ e ∈ edits, e.target = .null)) ∧
    ∀ keys : List Key, minKey ∉ keys →
      ∃ leaves, x.locate (sortedKeys keys) = .ok leaves ∧
        (∀ r ∈ (x.removeCourse keys leaves).levels,
          Remove.engine.Climbs Remove.rewrite 0 x.tree
            ((sortedKeys keys).zipWith Edit.remove leaves) r.height r.before
            r.edits) ∧
        ∀ gap t edits, Remove.engine.Climbs Remove.rewrite 0 x.tree
            ((sortedKeys keys).zipWith Edit.remove leaves) gap t edits →
          gap ≤ height ∧ Parcelled gap edits ∧
          ∃ nodes, Tended Remove.rewrite t gap edits nodes := by
  obtain ⟨table, s⟩ := h.exists_stores
  obtain ⟨row, height, i⟩ := s.exists_intact
  refine ⟨height, i.height_eq, fun batch hb => ?_, fun keys hk => ?_⟩
  · obtain ⟨leaves, hl, hr⟩ := exists_rising i hb
    refine ⟨leaves, hl, h.insertCourse_climbs hb hl,
      fun gap t edits hclimbs => ?_⟩
    obtain ⟨-, ⟨row', r⟩, -⟩ := hr.climbs h.closed hclimbs
    refine ⟨r.parcelled, fun hg => r.tended (by omega), fun hg => ?_⟩
    exact (r.above (by omega)).1
  · obtain ⟨leaves, hl, hr⟩ := exists_falling i hk
    refine ⟨leaves, hl, h.removeCourse_climbs hk hl,
      fun gap t edits hclimbs => ?_⟩
    obtain ⟨row', r⟩ := hr.climbs hclimbs
    exact ⟨r.within, r.parcelled, r.tended⟩

/-- The levels of a course by height, with the keys of their edits. -/
def arrivals (c : Course Tree) : List (Nat × List Key) :=
  c.levels.map fun r => (r.height, Edit.keys r.edits)

theorem exists_of_mem_arrivals {c : Course Tree} {height : Nat}
    {keys : List Key} (h : (height, keys) ∈ arrivals c) :
    ∃ r ∈ c.levels, r.height = height ∧ Edit.keys r.edits = keys := by
  obtain ⟨r, hr, heq⟩ := List.mem_map.mp h
  cases heq
  exact ⟨r, hr, rfl, rfl⟩

/-- Both leaves of a tree are split, and two new separators come up to its root.
A removal finds keys in both leaves. -/
theorem rewrites_each_node_once_two_leaves :
    ∃ (x : Index) (batch : List Pair) (leaves leaves' : List Handle),
      x.Reachable ∧ minKey ∉ batch.map (·.key) ∧ minKey ∉ [(2 : Key), 12] ∧
      x.tree.height = .ok 1 ∧
      (∃ r ∈ (x.insertCourse batch leaves).levels, r.height = 1 ∧
        Edit.keys r.edits = [0, 100] ∧ Parcelled 1 r.edits ∧
        ∃ nodes, Tended Insert.rewrite r.before 1 r.edits nodes) ∧
      ∃ r ∈ (x.removeCourse [2, 12] leaves').levels, r.height = 0 ∧
        Edit.keys r.edits = [2, 12] ∧ Parcelled 0 r.edits ∧
        ∃ nodes, Tended Remove.rewrite r.before 0 r.edits nodes := by
  let config : Config := { storeCapacity := 20 }
  let batch : List Pair := ([-9, -8, -7, -6, -5, -4, -3, -2, -1, 100, 101, 102,
    103, 104, 105, 106, 107] : List Key).map fun k => ⟨k, 1⟩
  obtain ⟨x, events, hx⟩ := exists_ofConfig
    (show config.Valid from ⟨by decide, by decide, by decide, by decide⟩)
  have hr := (Reachable.new hx).after (oneByOne 17)
  have hb : minKey ∉ batch.map (·.key) := by decide
  have hk : minKey ∉ [(2 : Key), 12] := by decide
  have htop : observe config (oneByOne 17) (·.tree.height.toOption) =
      some (some 1) := by decide +kernel
  have hnormal : normalForm batch = batch := normalForm_of_ascending (by decide)
  have hsorted : sortedKeys [2, 12] = [2, 12] :=
    sortedKeys_of_ascending (by decide)
  have hinsert : observe config (oneByOne 17) (fun y =>
      (y.locate (batch.map (·.key))).toOption.map fun leaves =>
        arrivals (Insert.engine.run y.pool y.tree (insertEdits batch leaves))) =
      some (some [(0, batch.map (·.key)), (1, [0, 100])]) := by decide +kernel
  have hremove : observe config (oneByOne 17) (fun y =>
      (y.locate [2, 12]).toOption.map fun leaves =>
        arrivals (Remove.engine.run y.pool y.tree
          ([2, 12].zipWith Edit.remove leaves))) =
      some (some [(0, [2, 12])]) := by decide +kernel
  obtain ⟨height, hheight, hins, hrem⟩ := rewrites_each_node_once hr
  obtain ⟨leaves, hlocate, hclimbs, hlevel⟩ := hins batch hb
  obtain ⟨leaves', hlocate', hclimbs', hlevel'⟩ := hrem [2, 12] hk
  rw [hnormal] at hlocate
  rw [hsorted] at hlocate'
  rw [observe, hx] at htop hinsert hremove
  simp only [hheight, hlocate, hlocate', Option.some.injEq]
    at htop hinsert hremove
  obtain rfl : height = 1 := Option.some.inj htop
  have hinsert : (1, [0, 100]) ∈
      arrivals ((x.after (oneByOne 17)).insertCourse batch leaves) := by
    rw [insertCourse, hnormal, show arrivals _ = _ from Option.some.inj hinsert]
    simp
  have hremove : (0, [2, 12]) ∈
      arrivals ((x.after (oneByOne 17)).removeCourse [2, 12] leaves') := by
    rw [removeCourse, hsorted, show arrivals _ = _ from Option.some.inj hremove]
    simp
  obtain ⟨r, hmem, hone, hkeys⟩ := exists_of_mem_arrivals hinsert
  obtain ⟨r', hmem', hzero, hkeys'⟩ := exists_of_mem_arrivals hremove
  have hl := hlevel _ _ _ (hclimbs r hmem)
  have hl' := hlevel' _ _ _ (hclimbs' r' hmem')
  rw [hone] at hl
  rw [hzero] at hl'
  exact ⟨_, batch, leaves, leaves', hr, hb, hk, hheight,
    ⟨r, hmem, hone, hkeys, hl.1, hl.2.1 (Nat.le_refl 1)⟩,
    ⟨r', hmem', hzero, hkeys', hl'.2.1, hl'.2.2⟩⟩

end Index

end LevelIndex
