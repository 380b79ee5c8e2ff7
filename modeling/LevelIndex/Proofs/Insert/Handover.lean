import LevelIndex.Proofs.Insert.Climb

/-!
# What an insert hands from level to level

A level that an insert has rewritten has nodes that the level above does not
know. For each of them its link is staged. A `Handover` says, in terms of walks
along the levels, that nothing is lost on the way: the level holds what it held
and what came up to it, and what is stored above together with what is staged is
the links of the level, with no key in common that would make one link take the
place of another.

Over the root there is no level to find. A batch that gets there finds the link
to the root instead, the only cell of the root to come (`cellsAt`).
-/

namespace LevelIndex

namespace Insert

/-- The cells that a batch finds at a height: those of the nodes there, or over
the root the link to it. -/
def cellsAt (t : Tree) (height : Nat) : Except Fault (List Cell) := do
  let top ← t.height
  if height ≤ top then do
    let nodes ← t.levelNodes height
    return nodes.flatMap fun q => q.2.cells
  else return [⟨minKey, .child t.root⟩]

/-- The cells `all` are the old and the new ones in key order, and of two cells
with one key the new one. -/
structure MergeOf (old new all : List Cell) : Prop where
  increasing : Increasing all
  mem_iff : ∀ c, c ∈ all ↔ c ∈ new ∨ c ∈ old ∧ ∀ n ∈ new, n.key ≠ c.key

theorem mergeOf_mergeCells {old new : List Cell} (ho : Increasing old)
    (hn : Increasing new) : MergeOf old new (mergeCells old new) where
  increasing := increasing_mergeCells ho hn
  mem_iff _ := mem_mergeCells ho hn

/-- A level passed by an insert: the cells found there, those of the edits, and
the nodes afterwards; the cells found on the level above, those of the staged
edits, and the height of the root. -/
structure Handover (r : LevelRecord Tree) (found items : List Cell)
    (nodes : List (Handle × Node)) (upper staged : List Cell) (height : Nat) :
    Prop where
  found_eq : cellsAt r.before r.height = .ok found
  items_eq : cellsOf r.edits = .ok items
  nodes_eq : r.compacted.state.levelNodes r.height = .ok nodes
  ends : nodes.getLast?.map (·.2.right) = some .null
  merged : MergeOf found items (nodes.flatMap fun q => q.2.cells)
  /-- Only at the leaves does an edit meet its own key. -/
  absent : r.height ≠ 0 → ∀ c ∈ found, ∀ i ∈ items, c.key ≠ i.key
  upper_eq : cellsAt r.compacted.state (r.height + 1) = .ok upper
  staged_eq : cellsOf r.compacted.staged = .ok staged
  /-- What is found above and what is staged are the links of the level. -/
  links : MergeOf upper staged
    (nodes.map fun q => ⟨q.2.firstKey, .child q.1⟩)
  height_eq : r.compacted.state.height = .ok height
  height_le : r.height ≤ height
  /-- Below the root each edit is staged for the node whose range holds its
  key. -/
  aimed : r.height < height → ∃ above,
    r.compacted.state.levelNodes (r.height + 1) = .ok above ∧
    ∀ e ∈ r.compacted.staged, e.target ≠ .null ∧
      ∃ q ∈ above, q.1 = e.target ∧ q.2.firstKey ≤ e.key ∧
        ∀ n, r.compacted.state.store.get? q.2.right = some n → e.key < n.firstKey
  /-- The edits for a new root come from a level that starts with the root. -/
  aimed_null : r.height = height →
    nodes.head?.map (·.1) = some r.compacted.state.root ∧
    ∀ e ∈ r.compacted.staged, e.target = .null

theorem cellsAt_eq {t : Tree} {row : Nat → List Handle} {height : Nat}
    (w : t.Walkable row height) (k : Nat) :
    cellsAt t k = .ok (standing t row height k) := by
  rw [cellsAt, w.height_eq, ok_bind, standing]
  split
  · next hk =>
      rw [w.levelNodes_eq hk, ok_bind, Store.flatMap_cells]
      rfl
  · rfl

namespace Rising

variable {row : Nat → List Handle} {height : Nat} {items : List Pair}

/-- **One level of an insert.** What is passed is handed over. The invariant at
the next level says that what stands there, merged with what is staged, is the
links of the level; this is the handover in other words. -/
theorem handover {l : LevelRecord Tree}
    (r : Rising l.before row height l.height items l.edits)
    (hne : l.edits ≠ [])
    (hpass : engine.pass l.height l.before l.edits = .ok l.compacted) :
    ∃ found items nodes upper staged height,
      Handover l found items nodes upper staged height := by
  obtain ⟨row', height', hle, hcont, r', -⟩ := (r.pass_yields hne).of_ok hpass
  have hr := r'.isRow hle
  have hnode := r'.walkable.levelNodes_eq hle
  let s := l.compacted.state.store
  refine ⟨standing l.before row height l.height, l.edits.map Edit.cell,
    (row' l.height).map fun h => (h, s.node h),
    standing l.compacted.state row' height' (l.height + 1),
    l.compacted.staged.map Edit.cell, height', ?_⟩
  exact
    { found_eq := cellsAt_eq r.walkable _
      items_eq := cellsOf_eq_ok r.merges
      nodes_eq := hnode
      ends := by
        rw [List.getLast?_map, Option.map_map]
        exact hr.linked.last_right hr.occupied
      merged := by
        rw [Store.flatMap_cells, hcont, ← r.merge_eq]
        exact mergeOf_mergeCells r.increasing_standing
          (Edit.increasing_cell r.ascending)
      absent := fun h0 c hc i hi => by
        obtain ⟨e, he, rfl⟩ := List.mem_map.mp hi
        exact r.absent h0 e he c hc
      upper_eq := cellsAt_eq r'.walkable _
      staged_eq := cellsOf_eq_ok r'.merges
      links := by
        have hlinks := r'.merge_eq
        rw [Store.due] at hlinks
        rw [List.map_map]
        show MergeOf _ _ (s.links (row' l.height))
        rw [← hlinks]
        exact mergeOf_mergeCells r'.increasing_standing
          (Edit.increasing_cell r'.ascending)
      height_eq := r'.walkable.height_eq
      height_le := hle
      aimed := fun hlt => by
        have hup := r'.isRow hlt
        refine ⟨_, r'.walkable.levelNodes_eq hlt, fun e he => ?_⟩
        obtain ⟨hh, hfloor⟩ := (r'.within hlt).1.floor_eq he
        exact ⟨Store.ne_null_of_contains (hup.live _ hh), _,
          List.mem_map_of_mem hh, rfl, (hup.floor_links_iff hh).mp hfloor⟩
      aimed_null := fun heq => by
        refine ⟨?_, (r'.above (by omega)).1⟩
        rw [List.head?_map, Option.map_map, heq, r'.head]
        rfl }

end Rising

end Insert

end LevelIndex
