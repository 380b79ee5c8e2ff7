import LevelIndex.Proofs.Changes
import LevelIndex.Proofs.Reachable

/-!
# What a removal of everything leaves

The levels of a tree that stores nothing hold one cell each: the leaves hold the
sentinel's, and above them there is one link for each node of the level below.
So each level is a single node (`Intact.row_eq_singleton`), owned by the one
above it, and the tree a bare path from the root to one leaf
(`Intact.exists_spine`). A removal keeps the root and the height, so a tree
emptied at one stroke is such a path however many levels it had.
-/

namespace LevelIndex

/-- What stands at the least key in the node at the height `k` of a path. -/
def spineEntry (path : Nat → Handle) : Nat → Entry
  | 0 => .null
  | k + 1 => .child (path k)

/-- The node at the height `k` of a path up to a root at `height`: it has one
cell, and no neighbour. -/
def spineNode (path : Nat → Handle) (height k : Nat) : Node where
  height := k
  parent := if k = height then .null else path (k + 1)
  right := .null
  cells := [⟨minKey, spineEntry path k⟩]
  length_le := Nat.succ_le_succ (Nat.zero_le _)

namespace Store

theorem eq_singleton_of_contents {s : Store} {row : List Handle} {c : Cell}
    (hne : ∀ h ∈ row, (s.node h).cells ≠ []) (h : s.contents row = [c]) :
    ∃ p, row = [p] ∧ (s.node p).cells = [c] := by
  cases row with
  | nil => cases h
  | cons p row =>
      obtain ⟨d, cells, hcells, -⟩ := Node.exists_cons (hne p (by simp))
      rw [contents_cons, hcells, List.cons_append, List.cons.injEq,
        List.append_eq_nil_iff] at h
      obtain ⟨rfl, rfl, hrow⟩ := h
      cases row with
      | nil => exact ⟨p, rfl, hcells⟩
      | cons q row =>
          exact absurd (List.append_eq_nil_iff.mp hrow).1 (hne q (by simp))

end Store

namespace Tree.Intact

variable {t : Tree} {row : Nat → List Handle} {height : Nat}

/-- From the leaves up, each level of a tree that stores nothing is one node,
whose only key is the one that the level above has for it. Nodes without cells
are ruled out, so one cell on a level makes one node. -/
theorem row_eq_singleton (i : t.Intact row height []) {k : Nat}
    (hk : k ≤ height) :
    row k = [rowHead row k] ∧ (t.store.node (rowHead row k)).cells =
      [⟨minKey, spineEntry (rowHead row) k⟩] := by
  have hsingle : ∀ {k : Nat} {c : Cell}, k ≤ height →
      t.store.contents (row k) = [c] →
      row k = [rowHead row k] ∧
        (t.store.node (rowHead row k)).cells = [c] := by
    intro k c hk h
    obtain ⟨p, hrow, hcells⟩ :=
      Store.eq_singleton_of_contents (i.level k hk).nonempty h
    rw [show rowHead row k = p by simp [rowHead, hrow]]
    exact ⟨hrow, hcells⟩
  induction k with
  | zero => exact hsingle hk i.leaves
  | succ k ih =>
      obtain ⟨hrow, hcells⟩ := ih (Nat.le_of_succ_le hk)
      refine hsingle hk ?_
      rw [(i.spans_succ hk).contents_eq, hrow, Store.links_cons, Node.firstKey,
        Node.keys, hcells]
      rfl

theorem rowHead_mem (i : t.Intact row height []) {k : Nat} (hk : k ≤ height) :
    rowHead row k ∈ row k := by
  rw [(i.row_eq_singleton hk).1]
  exact List.mem_singleton_self _

theorem rowHead_height (i : t.Intact row height []) :
    rowHead row height = t.root := by
  simp [rowHead, i.top]

/-- Each node is owned by the one above it, whose only child it is, and the root
by none. -/
theorem parent_rowHead (i : t.Intact row height []) {k : Nat}
    (hk : k ≤ height) : (t.store.node (rowHead row k)).parent =
      (spineNode (rowHead row) height k).parent := by
  rw [spineNode]
  split
  · next htop => rw [htop, i.rowHead_height, i.parent_root]
  · next hne =>
      have hlt : k + 1 ≤ height := Nat.lt_of_le_of_ne hk hne
      refine (i.spans_succ hlt).owns _ (i.rowHead_mem hlt) _ ?_
      rw [Node.children_eq, (i.row_eq_singleton hlt).2]
      exact List.mem_singleton_self _

theorem exists_spine (i : t.Intact row height []) :
    ∃ path : Nat → Handle, path height = t.root ∧
      ∀ k ≤ height, t.level k = .ok [path k] ∧
        t.store.get? (path k) = some (spineNode path height k) := by
  refine ⟨rowHead row, i.rowHead_height, fun k hk => ?_⟩
  obtain ⟨hrow, hcells⟩ := i.row_eq_singleton hk
  have hmem := i.rowHead_mem hk
  have hl := i.level k hk
  have hright : (t.store.node (rowHead row k)).right = .null := by
    have hlinked := hl.linked
    rw [hrow] at hlinked
    exact hlinked.1
  refine ⟨hrow ▸ i.level_eq hk, (i.get?_eq hk hmem).trans (congrArg some ?_)⟩
  exact Node.eq_of_fields_eq (hl.height_eq _ hmem) (i.parent_rowHead hk) hright
    hcells

end Tree.Intact

namespace Index

/-- **Emptying an index.** A removal of all the keys that are stored, and of any
others, goes through. The root and the height stay, and on each level there is
one node, with the least key alone: in the leaf it stands for nothing, above it
leads to the node of the level below. -/
theorem remove_all_leaves_spine {x : Index} (h : x.Reachable)
    {items : List Pair} (hitems : x.items = .ok items) {height : Nat}
    (hheight : x.tree.height = .ok height) {keys : List Key}
    (hk : minKey ∉ keys) (hall : ∀ p ∈ items, p.key ∈ keys) :
    ∃ (x' : Index) (events : List Event) (path : Nat → Handle),
      x.remove keys = .ok (x', events) ∧
      x'.tree.root = x.tree.root ∧ x'.tree.height = .ok height ∧
      x'.tree.levelSizes = .ok (List.replicate (height + 1) 1) ∧
      path height = x'.tree.root ∧
      ∀ k ≤ height, x'.tree.level k = .ok [path k] ∧
        x'.tree.store.get? (path k) = some (spineNode path height k) := by
  obtain ⟨t, s⟩ := h.exists_stores
  obtain rfl : items = t.items := Except.ok.inj (hitems.symm.trans s.items_eq)
  obtain ⟨row, height', i⟩ := s.exists_intact
  obtain rfl : height = height' :=
    Except.ok.inj (hheight.symm.trans i.height_eq)
  obtain ⟨tree, events, row', hremove, hthin, i'⟩ := remove_eq_ok i hk
  have hnone : (t.remove keys).items = [] := by
    refine List.eq_nil_iff_forall_not_mem.mpr fun p hp => ?_
    obtain ⟨hp, hnot⟩ := Table.mem_items_remove.mp hp
    exact hnot (hall p hp)
  rw [hnone] at i'
  obtain ⟨path, hroot, hpath⟩ := i'.exists_spine
  refine ⟨_, events, path, hremove, hthin.root_eq, i'.height_eq, ?_, hroot,
    hpath⟩
  rw [i'.levelSizes_eq]
  refine congrArg Except.ok (List.eq_replicate_iff.mpr ⟨by simp, ?_⟩)
  intro n hn
  obtain ⟨k, hk, rfl⟩ := List.mem_map.mp hn
  rw [(i'.row_eq_singleton (Nat.lt_succ_iff.mp (List.mem_range.mp hk))).1]
  rfl

/-- Three leaves under a root, emptied by a removal that names a key too
many. -/
theorem remove_all_leaves_spine_three_leaves :
    ∃ (x : Index) (items : List Pair) (x' : Index) (events : List Event)
      (path : Nat → Handle), x.Reachable ∧ x.items = .ok items ∧
      x.tree.height = .ok 1 ∧ x.tree.levelSizes = .ok [3, 1] ∧
      minKey ∉ (100 : Key) :: items.map (·.key) ∧
      (∀ p ∈ items, p.key ∈ (100 : Key) :: items.map (·.key)) ∧
      x.remove (100 :: items.map (·.key)) = .ok (x', events) ∧
      x'.tree.root = x.tree.root ∧ x'.tree.height = .ok 1 ∧
      x'.tree.levelSizes = .ok [1, 1] ∧ path 1 = x'.tree.root ∧
      ∀ k ≤ 1, x'.tree.level k = .ok [path k] ∧
        x'.tree.store.get? (path k) = some (spineNode path 1 k) := by
  let config : Config := { storeCapacity := 8 }
  obtain ⟨x, events, hx⟩ := exists_ofConfig
    (show config.Valid from ⟨by decide, by decide, by decide, by decide⟩)
  have hr := (Reachable.new hx).after (oneByOne 25)
  let items : List Pair := (List.range 25).map fun k =>
    ⟨.ofNat k, .ofNat (k * k)⟩
  have hseen : observe config (oneByOne 25) (fun y =>
      (y.items, y.tree.height, y.tree.levelSizes)) =
      some (.ok items, .ok 1, .ok [3, 1]) := by decide +kernel
  rw [observe, hx] at hseen
  obtain ⟨hitems, hrest⟩ := Prod.mk.inj (Option.some.inj hseen)
  obtain ⟨hheight, hsizes⟩ := Prod.mk.inj hrest
  have hk : minKey ∉ (100 : Key) :: items.map (·.key) := by decide +kernel
  have hall : ∀ p ∈ items, p.key ∈ (100 : Key) :: items.map (·.key) :=
    fun p hp => List.mem_cons_of_mem _ (List.mem_map_of_mem hp)
  obtain ⟨x', ev, path, hspine⟩ :=
    remove_all_leaves_spine hr hitems hheight hk hall
  exact ⟨_, items, x', ev, path, hr, hitems, hheight, hsizes, hk, hall, hspine⟩

end Index

end LevelIndex
