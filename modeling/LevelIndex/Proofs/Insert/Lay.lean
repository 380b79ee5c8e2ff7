import LevelIndex.Insert.Rewrite
import LevelIndex.Proofs.Level
import LevelIndex.Proofs.Yields
import Mathlib.Data.List.Nodup

/-!
# Laying chunks out as nodes

`Filled` says how chunks stand in the nodes of a row: each node holds one chunk,
and each is linked to the next. `Poured` says of a store that chunks were laid
out in it from a node on: they stand in that node and in the slots taken for
them, and nothing else has changed. Where no child stands in two places, each
node then owns the children it holds (`Poured.laid`).

A chunk is `Placed` when it has been written in front of a slot handed out for
the others, and `Poured.cons` adds it to the others once they are laid out. So
`lay_pours` goes by recursion on the chunks; the only fault it admits is a store
with fewer slots than the chunks take.

Children have to be followed with care. A commit makes its node the owner of the
children it holds, and a later commit may hold one of them again, if a child
stands in two chunks. So what `Poured` says is weaker: each child is owned by
some node that holds it (`Placed.held_cons`). The cells of an insert never put a
child in two places, but cells in general may.
-/

namespace LevelIndex

namespace Insert

/-- The nodes that so many cells need at the least. -/
def nodesFor (cells : Nat) : Nat :=
  (cells + (Node.capacity - 1)) / Node.capacity

theorem length_chunks_eq {cells : List Cell} (h : cells ≠ []) :
    (chunks cells).length = nodesFor cells.length :=
  length_chunks h

/-- The chunks stand in the nodes of the row, in the place of a node like
`like`. -/
structure Filled (s : Store) (like : Node) (chunks : List (List Cell))
    (row : List Handle) : Prop where
  live : ∀ k ∈ row, s.contains k = true
  cells_eq : row.map (fun k => (s.node k).cells) = chunks
  height_eq : ∀ k ∈ row, (s.node k).height = like.height
  parent_eq : ∀ k ∈ row, (s.node k).parent = like.parent
  linked : s.Linked like.right row

theorem Filled.contents_eq {s : Store} {like : Node}
    {chunks : List (List Cell)} {row : List Handle}
    (h : Filled s like chunks row) : s.contents row = chunks.flatten := by
  rw [Store.contents, List.flatMap_def, h.cells_eq]

/-- The chunks stand in the nodes of the row, and each node owns the children it
holds. -/
structure Stands (s : Store) (like : Node) (chunks : List (List Cell))
    (row : List Handle) : Prop extends Filled s like chunks row where
  owns : ∀ p ∈ row, ∀ c ∈ (s.node p).children, (s.node c).parent = p

/-- The chunks fill the node `current` and the `fresh` ones, which were handed
out for them. A child belongs to a node that holds it. -/
structure Poured (s s' : Store) (like : Node) (current : Handle)
    (chunks : List (List Cell)) (fresh : List Handle) : Prop
    extends Filled s' like chunks (current :: fresh) where
  frame : Store.Frame s s' [current] (current :: childrenOf chunks.flatten)
  taken : Store.Taken s s' fresh
  held : ∀ c ∈ childrenOf chunks.flatten, ∃ p ∈ current :: fresh,
    c ∈ (s'.node p).children ∧ (s'.node c).parent = p

/-- The chunks stand in the node `current` and in the `fresh` ones, which
were handed out for them. -/
structure Laid (s s' : Store) (like : Node) (current : Handle)
    (chunks : List (List Cell)) (fresh : List Handle) : Prop
    extends Stands s' like chunks (current :: fresh) where
  frame : Store.Frame s s' [current] (current :: childrenOf chunks.flatten)
  taken : Store.Taken s s' fresh

theorem Laid.length_eq {s s' : Store} {like : Node} {current : Handle}
    {chunks : List (List Cell)} {fresh : List Handle}
    (h : Laid s s' like current chunks fresh) :
    fresh.length + 1 = chunks.length := by
  rw [← h.cells_eq]
  simp

/-- Where no child stands twice, the node that it belongs to is the one that
holds it. -/
theorem Poured.laid {s s' : Store} {like : Node} {current : Handle}
    {chunks : List (List Cell)} {fresh : List Handle}
    (h : Poured s s' like current chunks fresh)
    (hnd : (childrenOf chunks.flatten).Nodup) :
    Laid s s' like current chunks fresh where
  toFilled := h.toFilled
  owns p hp c hc := by
    have hcont := h.contents_eq
    have hmem : c ∈ childrenOf chunks.flatten :=
      hcont ▸ Store.mem_childrenOf_contents.mpr ⟨p, hp, hc⟩
    obtain ⟨q, hq, hcq, hparent⟩ := h.held c hmem
    rw [← hcont, Store.contents, childrenOf_flatMap] at hnd
    have hdisjoint := (List.nodup_flatMap.mp hnd).2
    have : Std.Symm fun p q : Handle => List.Disjoint
        (childrenOf (s'.node p).cells) (childrenOf (s'.node q).cells) :=
      ⟨fun _ _ h _ hy hx => h hx hy⟩
    refine hparent.trans (Classical.byContradiction fun hne => ?_)
    exact hdisjoint.forall hq hp hne hcq hc
  frame := h.frame
  taken := h.taken

/-- What is staged for nodes handed out: their links, for the parent of the
node split. -/
def stagedFor (s : Store) (parent : Handle) (fresh : List Handle) : List Edit :=
  fresh.map fun k => .insert (s.node k).firstKey (.child k) parent

/-- Cells that may be poured out from the node `current` on. -/
structure Pourable (s : Store) (current : Handle) (cells : List Cell) :
    Prop where
  capacity_le : s.capacity ≤ Handle.nullRaw
  live : s.contains current = true
  increasing : Increasing cells
  children_live : ∀ c ∈ childrenOf cells, s.contains c = true
  not_self : current ∉ childrenOf cells

/-- Cells that may be laid out from the node `current` on. -/
structure Layable (s : Store) (current : Handle) (cells : List Cell) :
    Prop extends Pourable s current cells where
  children_nodup : (childrenOf cells).Nodup

theorem lay_last (like : Node) {t : Tree} {current : Handle} {cells : List Cell}
    (hl : Pourable t.store current cells)
    (hlen : cells.length ≤ Node.capacity) :
    ∃ t', lay t like current [cells] = .ok (t', []) ∧ t'.root = t.root ∧
      Poured t.store t'.store like current [cells] [] := by
  obtain ⟨s, root⟩ := t
  let node : Node := ⟨like.height, like.parent, like.right, cells, hlen⟩
  have hch : node.children = childrenOf cells := rfl
  obtain ⟨s', hs', hcap, hall, hself, hbody, hown, hrest⟩ :=
    Store.exists_commit (n := node) hl.live hl.increasing hl.children_live
      hl.not_self
  have hlive : s'.contains current = true :=
    Store.contains_of_allocated_le (Nat.le_of_eq hall.symm) hl.live
  refine ⟨⟨s', root⟩, ?_, rfl, ⟨?_, ?_, ?_, ?_, ?_, trivial⟩,
    ⟨hcap, Nat.le_of_eq hall.symm, ?_, ?_⟩, .of_allocated_eq hall, ?_⟩
  · rw [lay, Node.ofCells_of_length_le hlen]
    show (Tree.commit ⟨s, root⟩ current node >>= fun _ => _) = _
    rw [Tree.commit_eq_ok hs']
    rfl
  · simpa using hlive
  · simp [hself, node]
  · simp [hself, node]
  · simp [hself, node]
  · simp [hself, node]
  · intro k _ hk
    exact hbody k (by simpa using hk)
  · intro k _ hk
    obtain ⟨hk, hkc⟩ := not_or.mp (mt List.mem_cons.mpr hk)
    rw [hrest k hk (by simpa [hch] using hkc)]
  · intro c hc
    have hc : c ∈ node.children := by simpa [hch] using hc
    exact ⟨current, List.mem_cons_self, hself.symm ▸ hc, hown c hc⟩

/-- The first chunk stands in `current`, which is linked to a slot handed
out for the others. -/
structure Placed (s s' : Store) (like : Node) (current : Handle)
    (chunk : List Cell) (next : Handle) : Prop where
  frame : Store.Frame s s' [current] (current :: childrenOf chunk)
  taken : Store.Taken s s' [next]
  height_eq : (s'.node current).height = like.height
  parent_eq : (s'.node current).parent = like.parent
  right_eq : (s'.node current).right = next
  cells_eq : (s'.node current).cells = chunk
  owns : ∀ c ∈ childrenOf chunk, (s'.node c).parent = current

/-- A chunk is placed by a commit behind an allocation. The slot handed out is a
child of none of the cells, since these lead to slots that were in use. -/
theorem exists_placed (like : Node) {s s₁ : Store} {current : Handle}
    {chunk cells : List Cell} (hl : Pourable s current (chunk ++ cells))
    (hlen : chunk.length ≤ Node.capacity) (hcap : s₁.capacity = s.capacity)
    (hall : s₁.allocated = s.allocated + 1)
    (hnode : ∀ k, s₁.node k = s.node k) :
    ∃ s₂, s₁.commit current ⟨like.height, like.parent, .slot s.allocated, chunk,
      hlen⟩ = .ok s₂ ∧
      Placed s s₂ like current chunk (.slot s.allocated) := by
  let node : Node := ⟨like.height, like.parent, .slot s.allocated, chunk, hlen⟩
  have hch := childrenOf_append chunk cells
  have hf₁ := Store.frame_of_allocate hcap hall hnode
  have hlive : ∀ c ∈ childrenOf chunk, s₁.contains c = true := by
    intro c hc
    exact hf₁.contains (hl.children_live c (hch ▸ List.mem_append_left _ hc))
  have hself : current ∉ childrenOf chunk := by
    intro hm
    exact hl.not_self (hch ▸ List.mem_append_left _ hm)
  obtain ⟨s₂, hs₂, hcap₂, hall₂, hcur, hbody, hown, hrest⟩ :=
    Store.exists_commit (n := node) (hf₁.contains hl.live)
      (List.pairwise_append.mp hl.increasing).1 hlive hself
  have hf₂ : Store.Frame s₁ s₂ [current] (current :: childrenOf chunk) := by
    refine ⟨hcap₂, Nat.le_of_eq hall₂.symm,
      fun k _ hk => hbody k (by simpa using hk), ?_⟩
    intro k _ hk
    obtain ⟨hk, hkc⟩ := not_or.mp (mt List.mem_cons.mpr hk)
    rw [hrest k hk hkc]
  exact ⟨s₂, hs₂, hf₁.trans hf₂, .of_allocate (hall₂.trans hall), by rw [hcur],
    by rw [hcur], by rw [hcur], by rw [hcur], hown⟩

theorem Placed.unused {s s' : Store} {like : Node} {current next : Handle}
    {chunk : List Cell} (p : Placed s s' like current chunk next) :
    s.contains next = false :=
  p.taken.unused (by simp)

theorem Placed.live {s s' : Store} {like : Node} {current next : Handle}
    {chunk : List Cell} (p : Placed s s' like current chunk next) :
    s'.contains next = true :=
  p.taken.live (by simp)

section Placed

variable {s s₂ s₃ : Store} {like : Node} {current next : Handle}
  {chunk : List Cell} {chunks : List (List Cell)} {fresh : List Handle}
  (hl : Pourable s current (chunk ++ chunks.flatten))
  (p : Placed s s₂ like current chunk next)
include hl p

theorem Placed.ne : current ≠ next := by
  intro heq
  have hlive := hl.live
  rw [heq, p.unused] at hlive
  cases hlive

theorem Placed.next_not_mem : next ∉ childrenOf (chunk ++ chunks.flatten) := by
  intro hm
  have hlive := hl.children_live next hm
  rw [p.unused] at hlive
  cases hlive

theorem Placed.pourable : Pourable s₂ next chunks.flatten := by
  have hch := childrenOf_append chunk chunks.flatten
  refine ⟨?_, p.live, (List.pairwise_append.mp hl.increasing).2.1, ?_, ?_⟩
  · rw [p.frame.capacity]
    exact hl.capacity_le
  · intro c hc
    exact p.frame.contains
      (hl.children_live c (hch ▸ List.mem_append_right _ hc))
  · intro hm
    exact p.next_not_mem hl (hch ▸ List.mem_append_right _ hm)

variable (h : Poured s₂ s₃ like next chunks fresh)
include h

theorem Placed.node_eq : s₃.node current = s₂.node current := by
  refine h.frame.node (p.frame.contains hl.live) (by simpa using p.ne hl) ?_
  refine mt List.mem_cons.mp (not_or.mpr ⟨p.ne hl, fun hm => hl.not_self ?_⟩)
  rw [childrenOf_append]
  exact List.mem_append_right _ hm

theorem Placed.frame_cons :
    Store.Frame s s₃ [current]
      (current :: childrenOf (chunk :: chunks).flatten) := by
  refine (p.frame.trans h.frame).restrict ?_ ?_
  · intro k hk hlive
    rcases List.mem_cons.mp (show k ∈ current :: [next] from hk) with rfl | hk
    · simp
    · rw [List.mem_singleton.mp hk, p.unused] at hlive
      cases hlive
  · intro k hk hlive
    have hk' : k ∈ (current :: childrenOf chunk) ++
      (next :: childrenOf chunks.flatten) := hk
    rw [List.flatten_cons, childrenOf_append]
    rcases List.mem_append.mp hk' with hk | hk
    · rcases List.mem_cons.mp hk with rfl | hk
      · simp
      · exact List.mem_cons_of_mem _ (List.mem_append_left _ hk)
    · rcases List.mem_cons.mp hk with rfl | hk
      · rw [p.unused] at hlive
        cases hlive
      · exact List.mem_cons_of_mem _ (List.mem_append_right _ hk)

theorem Placed.held_cons : ∀ c ∈ childrenOf (chunk :: chunks).flatten,
    ∃ q ∈ current :: next :: fresh,
      c ∈ (s₃.node q).children ∧ (s₃.node c).parent = q := by
  intro c hc
  have hch := childrenOf_append chunk chunks.flatten
  rw [List.flatten_cons] at hc
  by_cases hrest : c ∈ childrenOf chunks.flatten
  · obtain ⟨q, hq, h⟩ := h.held c hrest
    exact ⟨q, List.mem_cons_of_mem _ hq, h⟩
  · have hfirst : c ∈ childrenOf chunk :=
      (List.mem_append.mp (hch ▸ hc)).resolve_right hrest
    refine ⟨current, List.mem_cons_self, ?_, ?_⟩
    · rw [p.node_eq hl h, Node.children_eq, p.cells_eq]
      exact hfirst
    · rw [h.frame.parent c (p.frame.contains (hl.children_live c hc)) ?_,
        p.owns c hfirst]
      refine mt List.mem_cons.mp (not_or.mpr ⟨?_, hrest⟩)
      exact fun heq => p.next_not_mem hl (heq ▸ hc)

/-- A chunk placed in front of others that are laid out from the slot handed
out for them. -/
theorem Poured.cons :
    Poured s s₃ like current (chunk :: chunks) (next :: fresh) := by
  have hnode := p.node_eq hl h
  refine ⟨⟨?_, ?_, ?_, ?_, ?_, h.linked⟩, p.frame_cons hl h,
    p.taken.trans h.taken p.frame.allocated h.frame.allocated,
    p.held_cons hl h⟩
  · intro k hk
    rcases List.mem_cons.mp hk with rfl | hk
    · exact h.frame.contains (p.frame.contains hl.live)
    · exact h.live k hk
  · rw [List.map_cons, h.cells_eq, hnode, p.cells_eq]
  · intro k hk
    rcases List.mem_cons.mp hk with rfl | hk
    · rw [hnode, p.height_eq]
    · exact h.height_eq k hk
  · intro k hk
    rcases List.mem_cons.mp hk with rfl | hk
    · rw [hnode, p.parent_eq]
    · exact h.parent_eq k hk
  · rw [hnode, p.right_eq]
    rfl

end Placed

theorem lay_pours (like : Node) :
    ∀ (chunks : List (List Cell)) {t : Tree} {current : Handle},
    chunks ≠ [] → Pourable t.store current chunks.flatten →
    (∀ c ∈ chunks, c.length ≤ Node.capacity) →
    Yields (Short t.store.capacity (t.store.allocated + (chunks.length - 1)))
      (lay t like current chunks) fun r =>
      ∃ fresh, r.1.root = t.root ∧
      r.2 = stagedFor r.1.store like.parent fresh ∧
      Poured t.store r.1.store like current chunks fresh
  | [], _, _, hne, _, _ => absurd rfl hne
  | [cells], t, current, _, hl, hlen => by
      obtain ⟨t', ht', hroot, hpoured⟩ := lay_last like (by simpa using hl)
        (hlen cells (by simp))
      exact yields_of_eq_ok ht' ⟨[], hroot, rfl, hpoured⟩
  | chunk :: next :: rest, t, current, _, hl, hlen => by
      obtain ⟨s, root⟩ := t
      have hchunk := hlen chunk (by simp)
      rw [List.flatten_cons] at hl
      rw [lay]
      rcases Store.allocate_cases hl.capacity_le
        with ⟨s₁, hs₁, hcap₁, hall₁, hnode₁⟩ | ⟨hfull, hle⟩
      · rw [hs₁]
        let handle : Handle := .slot s.allocated
        obtain ⟨s₂, hs₂, p⟩ := exists_placed like hl hchunk hcap₁ hall₁ hnode₁
        have ih := lay_pours like (next :: rest) (t := ⟨s₂, root⟩)
          (List.cons_ne_nil _ _) (p.pourable hl) fun c hc =>
          hlen c (List.mem_cons_of_mem _ hc)
        have hshort : Short s₂.capacity
            (s₂.allocated + ((next :: rest).length - 1)) = Short s.capacity
            (s.allocated + ((chunk :: next :: rest).length - 1)) := by
          have hall := p.taken.allocated_eq p.frame.allocated
          simp only [List.length_cons, List.length_nil] at hall ⊢
          rw [p.frame.capacity, hall]
          congr 1
          omega
        show Yields _
          (Node.ofCells like.height like.parent handle chunk >>= fun node =>
            s₁.commit current node >>= fun s₂ =>
              lay ⟨s₂, root⟩ like handle (next :: rest) >>= fun r => _) _
        rw [Node.ofCells_of_length_le hchunk]
        show Yields _ (s₁.commit current _ >>= fun s₂ =>
          lay ⟨s₂, root⟩ like handle (next :: rest) >>= fun r => _) _
        rw [hs₂]
        show Yields _
          (lay ⟨s₂, root⟩ like handle (next :: rest) >>= fun r => _) _
        refine Yields.bind (hshort ▸ ih) ?_
        intro r hr
        obtain ⟨fresh, hroot, hstaged, hpoured⟩ := hr
        refine ⟨handle :: fresh, hroot, ?_, Poured.cons hl p hpoured⟩
        have hnext : (r.1.store.node handle).cells = next := by
          have h := hpoured.cells_eq
          rw [List.map_cons, List.cons.injEq] at h
          exact h.1
        have hfirst : (r.1.store.node handle).firstKey =
            (next.head?.map (·.key)).getD minKey := by
          simp [Node.firstKey, Node.keys, hnext]
        rw [hstaged, stagedFor, stagedFor, List.map_cons, hfirst]
      · rw [hfull]
        refine ⟨rfl, ?_⟩
        show s.capacity < s.allocated + (rest.length + 1 + 1 - 1)
        have hle' : s.capacity ≤ s.allocated := hle
        omega

end Insert

end LevelIndex
