import LevelIndex.Proofs.Intact
import Mathlib.Data.List.Nodup

/-!
# Well-formed trees

What a tree has to be for its questions to be answered is less than what the
engines keep up: `Tree.WellFormed` asks for no sentinel, no least key in front
and no half-full nodes. It is put in the words of single nodes and their
children. The nodes of one height form a row; the rows start from the root, each
made of the children of the row above, and no node comes twice.

That the keys increase along every row (`WellFormed.increasing`), and that the
cells of a row are the links of the row below, is not part of it but follows
(`WellFormed.isRow`, `WellFormed.spans`): inside a node its cells are in order,
and from one node to the next the separators are. Conversely rows of that kind
that end in leaves make up a well-formed tree (`WellFormed.of_rows`), and so
intact trees are well formed.
-/

namespace LevelIndex

namespace Tree

/-- The nodes of the levels up to a height. -/
def nodesUpTo (row : Nat → List Handle) (height : Nat) : List Handle :=
  (List.range (height + 1)).flatMap row

theorem mem_nodesUpTo {row : Nat → List Handle} {height : Nat} {p : Handle} :
    p ∈ nodesUpTo row height ↔ ∃ k ≤ height, p ∈ row k := by
  simp only [nodesUpTo, List.mem_flatMap, List.mem_range, Nat.lt_succ_iff]

theorem nodup_nodesUpTo {s : Store} {row : Nat → List Handle} {height : Nat}
    (hr : ∀ k ≤ height, s.IsRow k (row k)) : (nodesUpTo row height).Nodup := by
  refine List.nodup_flatMap.mpr ⟨fun k hk => ?_, ?_⟩
  · exact (hr k (by simpa [Nat.lt_succ_iff] using hk)).nodup
  · refine List.nodup_range.imp_of_mem fun {j k} hj hk hne p hpj hpk => ?_
    exact Store.not_mem_row_of_ne hr (by simpa [Nat.lt_succ_iff] using hj)
      (by simpa [Nat.lt_succ_iff] using hk) hne hpj hpk

theorem ne_nil_of_spans {s : Store} {row : Nat → List Handle} {height : Nat}
    (htop : row height ≠ [])
    (hspans : ∀ k < height, s.Spans (row k) (row (k + 1)))
    (hne : ∀ k ≤ height, ∀ p ∈ row k, (s.node p).cells ≠ []) {k : Nat}
    (hk : k ≤ height) : row k ≠ [] := by
  induction hk using Nat.decreasingInduction with
  | self => exact htop
  | of_succ k hlt ih =>
      obtain ⟨p, rest, hrow⟩ := List.exists_cons_of_ne_nil ih
      have hp : p ∈ row (k + 1) := by simp [hrow]
      exact (hspans k hlt).lower_ne_nil hp (hne _ hlt p hp)

/-- The nodes reached from the root are the rows up to `height`, and each of
them is as it should be. -/
structure WellFormed (t : Tree) (row : Nat → List Handle) (height : Nat) :
    Prop where
  top : row height = [t.root]
  parent_root : (t.store.node t.root).parent = .null
  children : ∀ k < height,
    row k = (row (k + 1)).flatMap fun p => (t.store.node p).children
  nodup : (nodesUpTo row height).Nodup
  live : ∀ k ≤ height, ∀ h ∈ row k, t.store.contains h = true
  height_eq : ∀ k ≤ height, ∀ h ∈ row k, (t.store.node h).height = k
  nonempty : ∀ k ≤ height, ∀ h ∈ row k, (t.store.node h).cells ≠ []
  increasing_cells : ∀ k ≤ height, ∀ h ∈ row k,
    Increasing (t.store.node h).cells
  /-- A leaf holds values, and nothing under the least key. -/
  leaf : ∀ h ∈ row 0, ∀ c ∈ (t.store.node h).cells,
    (∃ v, c.entry = .value v ∧ c.key ≠ minKey) ∨ c = sentinelCell
  /-- An inner node holds children one level lower that name it as their parent
  and start at their separators. -/
  inner : ∀ k < height, ∀ p ∈ row (k + 1), ∀ c ∈ (t.store.node p).cells, ∃ h,
    c.entry = .child h ∧ (t.store.node h).height = k ∧
    (t.store.node h).parent = p ∧ (t.store.node h).firstKey = c.key
  increasing_leaves : Increasing (t.store.contents (row 0))
  /-- The keys of an inner node lie below the separator of the next node. -/
  bounded : ∀ k ≤ height, 0 < k → (row k).IsChain fun p q =>
    ∀ c ∈ (t.store.node p).cells, c.key < (t.store.node q).firstKey
  linked : ∀ k ≤ height, t.store.Linked .null (row k)

namespace WellFormed

variable {t : Tree} {row : Nat → List Handle} {height : Nat}

section Rows

variable (w : t.WellFormed row height)
include w

theorem root_mem : t.root ∈ row height := by simp [w.top]

theorem height_root : (t.store.node t.root).height = height :=
  w.height_eq height (Nat.le_refl _) _ w.root_mem

/-- The keys of a row increase. Inside a node they do by themselves; the last
key of a node lies below the separator behind it, which is where the next node
starts. -/
theorem increasing {k : Nat} (hk : k ≤ height) :
    Increasing (t.store.contents (row k)) := by
  cases k with
  | zero => exact w.increasing_leaves
  | succ k =>
      exact Store.increasing_of_isChain (w.nonempty _ hk)
        (w.increasing_cells _ hk) (w.bounded _ hk (Nat.succ_pos k))

theorem cells_eq {k : Nat} (hk : k < height) {p : Handle}
    (hp : p ∈ row (k + 1)) :
    (t.store.node p).cells = t.store.links (t.store.node p).children := by
  refine Store.eq_links_childrenOf fun c hc => ?_
  obtain ⟨h, hchild, -, -, hkey⟩ := w.inner k hk p hp c hc
  exact ⟨h, by rw [hkey, ← hchild]⟩

theorem spans {k : Nat} (hk : k < height) :
    t.store.Spans (row k) (row (k + 1)) := by
  rw [w.children k hk]
  refine .of_cells_eq (fun p hp => w.cells_eq hk hp) fun p hp c hc => ?_
  obtain ⟨d, hd, hdc⟩ := List.mem_filterMap.mp hc
  obtain ⟨h, hchild, -, howner, -⟩ := w.inner k hk p hp d hd
  rw [hchild] at hdc
  cases hdc
  exact howner

theorem occupied {k : Nat} (hk : k ≤ height) : row k ≠ [] :=
  ne_nil_of_spans (by simp [w.top]) (fun _ => w.spans) w.nonempty hk

theorem isRow {k : Nat} (hk : k ≤ height) : t.store.IsRow k (row k) where
  live := w.live k hk
  height_eq := w.height_eq k hk
  linked := w.linked k hk
  nonempty := w.nonempty k hk
  increasing := w.increasing hk
  occupied := w.occupied hk

theorem height_lt : height < t.store.allocated :=
  Store.height_lt_allocated fun _ => w.isRow

end Rows

/-- Rows that span each other, from one root down to leaves, make a well-formed
tree: what spans a row holds the links of its nodes, and owns them. -/
theorem of_rows (htop : row height = [t.root])
    (hroot : (t.store.node t.root).parent = .null)
    (hrow : ∀ k ≤ height, t.store.IsRow k (row k))
    (hspans : ∀ k < height, t.store.Spans (row k) (row (k + 1)))
    (hleaf : ∀ c ∈ t.store.contents (row 0),
      (∃ v, c.entry = .value v ∧ c.key ≠ minKey) ∨ c = sentinelCell) :
    t.WellFormed row height where
  top := htop
  parent_root := hroot
  children k hk := (hspans k hk).flatMap_children.symm
  nodup := nodup_nodesUpTo hrow
  live k hk := (hrow k hk).live
  height_eq k hk := (hrow k hk).height_eq
  nonempty k hk := (hrow k hk).nonempty
  increasing_cells k hk h hh := (hrow k hk).increasing_cells hh
  leaf h hh c hc := hleaf c (Store.mem_contents.mpr ⟨h, hh, hc⟩)
  inner k hk p hp c hc := by
    have hs := hspans k hk
    rw [hs.cells_eq hp] at hc
    obtain ⟨h, hh, rfl⟩ := Store.mem_links.mp hc
    exact ⟨h, rfl, (hrow k (Nat.le_of_lt hk)).height_eq h (hs.mem_lower hp hh),
      hs.owns p hp h hh, rfl⟩
  increasing_leaves := (hrow 0 (Nat.zero_le _)).increasing
  bounded k hk _ := by
    have hr := hrow k hk
    refine List.isChain_iff_forall_rel_of_append_cons_cons.mpr ?_
    intro p q l m hsplit c hc
    have hq : q ∈ row k := by simp [hsplit]
    obtain ⟨d, hd, hdk⟩ := Node.exists_mem_key_eq_firstKey (hr.nonempty q hq)
    have hi := hr.increasing
    rw [hsplit, Store.contents_append, Store.contents_cons] at hi
    rw [← hdk]
    exact (List.pairwise_append.mp (List.pairwise_append.mp hi).2.1).2.2 c hc d
      (Store.mem_contents.mpr ⟨q, by simp, hd⟩)
  linked k hk := (hrow k hk).linked

end WellFormed

theorem Intact.wellFormed {t : Tree} {row : Nat → List Handle} {height : Nat}
    {items : List Pair} (i : t.Intact row height items) :
    t.WellFormed row height := by
  refine .of_rows i.top i.parent_root (fun _ => i.isRow)
    (fun _ => i.spans_succ) fun c hc => ?_
  rw [i.leaves] at hc
  have hi := i.increasing_leafCells
  rcases List.mem_cons.mp hc with rfl | hc
  · exact Or.inr rfl
  · have hlt := List.rel_of_pairwise_cons hi hc
    obtain ⟨p, -, rfl⟩ := List.mem_map.mp hc
    exact Or.inl ⟨p.value, rfl, (Int64.ne_of_lt hlt).symm⟩

end Tree

end LevelIndex
