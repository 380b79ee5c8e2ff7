import LevelIndex.Proofs.Insert.Climb

/-!
# Inserts under keys that are there

Cells that only replace others of their keys make no node longer. So each leaf
takes back as many cells as it had, no slot is handed out and nothing is staged:
the batch ends at the leaves, and the tree is the one before with these cells
put through a map (`Rising.run_replaces`).
-/

namespace LevelIndex

/-- The node with each of its cells put through a map. -/
def Node.mapCells (f : Cell → Cell) (n : Node) : Node :=
  { n with
    cells := n.cells.map f
    length_le := by rw [List.length_map]; exact n.length_le }

namespace Store

variable {s : Store} {row : List Handle} {f : Cell → Cell}

/-- The store with the cells of some nodes put through a map. -/
def mapCells (s : Store) (row : List Handle) (f : Cell → Cell) : Store :=
  { s with
    nodes := s.nodes.mapIdx fun i n =>
      if .slot i ∈ row then n.mapCells f else n
    size_le := by rw [Array.size_mapIdx]; exact s.size_le }

theorem node_mapCells (k : Handle) : (s.mapCells row f).node k =
    if k ∈ row then (s.node k).mapCells f else s.node k := by
  have hblank : Node.blank.mapCells f = Node.blank := rfl
  cases k with
  | null => simp [node, get?, hblank]
  | slot i =>
      cases h : s.nodes[i]? <;> simp [node, get?, mapCells, h, hblank]

theorem mapCells_eq_self (h : ∀ c ∈ s.contents row, f c = c) :
    s.mapCells row f = s := by
  refine eq_of_node_eq rfl Array.size_mapIdx fun k => ?_
  rw [node_mapCells]
  split
  · next hk =>
      have hcells : (s.node k).cells.map f = (s.node k).cells :=
        (List.map_congr_left fun c hc =>
          h c (mem_contents.mpr ⟨k, hk, hc⟩)).trans (List.map_id _)
      cases hn : s.node k
      simp_all [Node.mapCells]
  · rfl

theorem Sited.replaces {edits : List Edit} {sites : List Site}
    (hs : s.Sited row edits sites)
    (h : Replaces f (s.contents row) (edits.map Edit.cell)) {a : Site}
    (ha : a ∈ sites) :
    Replaces f (s.node a.handle).cells (a.run.map Edit.cell) := by
  have hold : ∀ c ∈ (s.node a.handle).cells, c ∈ s.contents row ∧
      c.key ∈ a.keys s := fun c hc =>
    ⟨mem_contents.mpr ⟨_, hs.mem_row ha, hc⟩,
      List.mem_append_left _ (List.mem_map_of_mem hc)⟩
  have hnew : ∀ b ∈ sites, ∀ e ∈ b.run, e.key ∈ b.keys s := fun b _ e he =>
    List.mem_append_right _ (List.mem_map_of_mem he)
  refine ⟨fun c hc => h.key_eq c (hold c hc).1, fun c hc => ?_, fun n hn => ?_⟩
  · obtain ⟨hmem, hkey⟩ := hold c hc
    rcases h.mem_or c hmem with hf | ⟨hf, hno⟩
    · obtain ⟨e, he, hec⟩ := List.mem_map.mp hf
      obtain ⟨b, hb, heb⟩ := Site.mem_edits.mp (hs.edits_eq ▸ he)
      have hek : e.key = c.key :=
        (congrArg Cell.key hec).trans (h.key_eq c hmem)
      obtain rfl := Site.eq_of_mem_keys hs.apart ha hb hkey
        (hek ▸ hnew b hb e heb)
      exact Or.inl (hec ▸ List.mem_map_of_mem heb)
    · refine Or.inr ⟨hf, fun n hn => ?_⟩
      obtain ⟨e, he, rfl⟩ := List.mem_map.mp hn
      exact hno _ (List.mem_map_of_mem (hs.mem_edits ha he))
  · obtain ⟨e, he, rfl⟩ := List.mem_map.mp hn
    obtain ⟨c, hc, hck⟩ := h.met _ (List.mem_map_of_mem (hs.mem_edits ha he))
    obtain ⟨p, hp, hcp⟩ := mem_contents.mp hc
    obtain ⟨b, hb, rfl⟩ := List.mem_map.mp (hs.row_eq ▸ hp)
    obtain rfl := Site.eq_of_mem_keys hs.apart hb ha
      (List.mem_append_left _ (List.mem_map_of_mem hcp))
      (hck ▸ hnew a ha e he)
    exact ⟨c, hcp, hck⟩

end Store

/-- The tree with the cells of some nodes put through a map. -/
def Tree.mapCells (t : Tree) (row : List Handle) (f : Cell → Cell) : Tree :=
  { t with store := t.store.mapCells row f }

namespace Insert

theorem Settled.mapped {s s' : Store} {sites : List Site}
    {fresh : Handle → List Handle} (h : Settled s s' sites fresh) {a : Site}
    (ha : a ∈ sites) {f : Cell → Cell}
    (hm : merged s a = (s.node a.handle).cells.map f) :
    fresh a.handle = [] ∧
      s'.node a.handle = (s.node a.handle).mapCells f := by
  have hst := h.stands a ha
  have hlen : (merged s a).length ≤ Node.capacity := by
    rw [hm, List.length_map]
    exact (s.node a.handle).length_le
  have hcells := hst.cells_eq
  rw [chunks_of_length_le hlen, List.map_cons, List.cons.injEq,
    List.map_eq_nil_iff] at hcells
  obtain ⟨hcells, hfresh⟩ := hcells
  have hlink := hst.linked
  rw [hfresh] at hlink
  refine ⟨hfresh, Node.eq_of_body_eq ?_ (hst.parent_eq _ (by simp))⟩
  simp only [Node.body, Node.mapCells, Node.mk.injEq, true_and]
  exact ⟨hst.height_eq _ (by simp), hlink.1, hcells.trans hm⟩

theorem need_eq_zero {s : Store} {sites : List Site} {f : Cell → Cell}
    (hm : ∀ a ∈ sites, merged s a = (s.node a.handle).cells.map f) :
    need s sites = 0 := by
  refine List.sum_eq_zero_iff_forall_eq_nat.mpr fun n hn => ?_
  obtain ⟨a, ha, rfl⟩ := List.mem_map.mp hn
  rw [hm a ha, chunks_of_length_le]
  · rfl
  · rw [List.length_map]
    exact (s.node a.handle).length_le

/-- Where no cell leads down, replacing cells changes those nodes alone: no slot
is taken, and there is no child to be given an owner. -/
theorem Settled.store_eq {s s' : Store} {sites : List Site}
    {fresh : Handle → List Handle} (h : Settled s s' sites fresh)
    {f : Cell → Cell}
    (hm : ∀ a ∈ sites, merged s a = (s.node a.handle).cells.map f)
    (hleaf : childrenOf (sites.flatMap (merged s)) = []) :
    s' = s.mapCells (sites.map (·.handle)) f := by
  have hall : s'.allocated = s.allocated := by
    rw [h.allocated_eq, need_eq_zero hm, Nat.add_zero]
  refine Store.eq_of_node_eq h.frame.capacity
    (hall.trans Array.size_mapIdx.symm) fun k => ?_
  rw [Store.node_mapCells]
  split
  · next hk =>
      obtain ⟨a, ha, rfl⟩ := List.mem_map.mp hk
      exact (h.mapped ha (hm a ha)).2
  · next hk =>
      cases hlive : s.contains k with
      | true =>
          refine h.frame.node hlive hk ?_
          rw [hleaf]
          exact List.not_mem_nil
      | false =>
          have hlive' := hlive
          rw [← Store.contains_eq_of_allocated_eq hall] at hlive'
          rw [Store.node_eq_blank hlive', Store.node_eq_blank hlive]

namespace Rising

variable {t : Tree} {row : Nat → List Handle} {height : Nat}
  {items : List Pair} {edits : List Edit} {f : Cell → Cell}

theorem pass_replaces (r : Rising t row height 0 items edits)
    (h : Replaces f (t.store.contents (row 0)) (edits.map Edit.cell)) :
    ∃ step, engine.pass 0 t edits = .ok step ∧
      step.state = t.mapCells (row 0) f ∧ step.staged = [] := by
  have hg := Nat.zero_le height
  obtain ⟨sites, hsites⟩ := r.exists_sites hg
  obtain ⟨hdue, hr⟩ := r.ready hg hsites
  have hmerged : ∀ a ∈ sites, merged t.store a =
      (t.store.node a.handle).cells.map f := fun a ha =>
    (hsites.replaces h ha).mergeCells_eq (hr.increasing a ha)
      (Edit.increasing_cell (hr.ascending a ha))
  have hroom : ¬t.store.capacity < t.store.allocated + need t.store sites := by
    rw [need_eq_zero hmerged]
    exact Nat.not_lt_of_le t.store.allocated_le
  obtain ⟨first, hfirst, hroot, fresh, hs, hstaged⟩ :=
    ((r.settled hg hsites).alone.weaken fun f hf => hroom hf.2).exists_ok
  have hstore : first.state.store = t.store.mapCells (row 0) f := by
    rw [← hsites.row_eq]
    refine hs.store_eq hmerged ?_
    rw [hdue, Store.childrenOf_due]
    rfl
  refine ⟨⟨⟨first.staged, []⟩, first.state⟩, ?_, ?_, ?_⟩
  · show (engine.execute t 0 edits >>= fun _ => _) = _
    rw [show engine.execute t 0 edits = .ok first from hfirst]
    rfl
  · show first.state = ⟨t.store.mapCells (row 0) f, t.root⟩
    rw [← hstore, ← hroot]
  · show first.staged = []
    rw [hstaged]
    refine List.flatMap_eq_nil_iff.mpr fun a ha => ?_
    rw [notices, (hs.mapped ha (hmerged a ha)).1]
    rfl

/-- A batch that replaces cells of the leaves changes nothing else. -/
theorem run_replaces (r : Rising t row height 0 items edits)
    (h : Replaces f (t.store.contents (row 0)) (edits.map Edit.cell))
    (pool : Pool) :
    (engine.run pool t edits).ending = .ok (t.mapCells (row 0) f) := by
  by_cases hne : edits = []
  · subst hne
    have hself : ∀ c ∈ t.store.contents (row 0), f c = c := fun c hc =>
      ((h.mem_or c hc).resolve_left List.not_mem_nil).1
    rw [Engine.run_nil, Tree.mapCells, Store.mapCells_eq_self hself]
  · have hruns : engine.ByRuns rewrite := fun _ _ _ => rfl
    obtain ⟨step, hpass, hstate, hstaged⟩ := r.pass_replaces h
    rw [Engine.run_of_pass hruns.divisible r.clustered hne hpass hstaged,
      hstate]

end Rising

end Insert

end LevelIndex
