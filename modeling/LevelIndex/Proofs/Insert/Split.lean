import LevelIndex.Proofs.Batch.Parcels
import LevelIndex.Proofs.Insert.Climb

/-!
# How a rewrite splits a node

`Split` is what a run makes of the node it is merged into: as many nodes as the
merged cells need, the first of them in its place, and an edit staged for each
of the others. It does not matter how many edits the run has, nor whether they
are those of the batch: any run may be merged into any node of the level that is
being rewritten, as long as its entries may stand there (`Apt`). The law is
`rewrite_splits`, and `rewrite_splits_over` over the root.

A level in the middle of being rewritten can be walked all the time. `Tier` is
the invariant: the chain of the level starts below a path of first children that
leads down from the root, and its nodes are `Receptive`. A run splices the nodes
it has taken into the chain (`Tier.rewrite`), and so the chain is there wherever
a crew has come to (`Rising.reached`). The path is not touched: its nodes above
the level are not written, and the first node of the level keeps its place.

Heights are what keeps the levels apart here. A node that is split is not one of
its own children, nor one of the path above it, since it has another height, and
heights of nodes in use do not change (`Steady`).
-/

namespace LevelIndex

namespace Store

/-- Above the leaves an entry leads to a node one level down, in a leaf it leads
to none. -/
def Suits (s : Store) (height : Nat) : Entry → Prop
  | .child c => s.contains c = true ∧ (s.node c).height + 1 = height
  | _ => height = 0

/-- Slots in use stay in use, by nodes of the same height. -/
def Steady (s s' : Store) : Prop :=
  ∀ k, s.contains k = true →
    s'.contains k = true ∧ (s'.node k).height = (s.node k).height

theorem Steady.trans {s s' s'' : Store} (h : s.Steady s') (h' : s'.Steady s'') :
    s.Steady s'' := fun k hk =>
  have ⟨hlive, hheight⟩ := h k hk
  have ⟨hlive', hheight'⟩ := h' k hlive
  ⟨hlive', hheight'.trans hheight⟩

theorem Suits.mono {s s' : Store} {height : Nat} {x : Entry}
    (h : s.Suits height x) (hs : s.Steady s') : s'.Suits height x := by
  cases x with
  | child c =>
      obtain ⟨hlive, hheight⟩ := hs c h.1
      exact ⟨hlive, by rw [hheight]; exact h.2⟩
  | null => exact h
  | value v => exact h

/-- A node of that height, which may be read, over nodes one level down. -/
structure Receptive (s : Store) (height : Nat) (h : Handle) : Prop where
  live : s.contains h = true
  height_eq : (s.node h).height = height
  increasing : Increasing (s.node h).cells
  children : ∀ c ∈ (s.node h).children, s.Suits height (.child c)

theorem Receptive.of_body_eq {s s' : Store} {height : Nat} {h : Handle}
    (n : s.Receptive height h) (hs : s.Steady s')
    (hbody : (s'.node h).body = (s.node h).body) : s'.Receptive height h := by
  have hcells := Node.cells_eq_of_body_eq hbody
  obtain ⟨hlive, hheight⟩ := hs h n.live
  refine ⟨hlive, hheight.trans n.height_eq, hcells ▸ n.increasing,
    fun c hc => (n.children c ?_).mono hs⟩
  rwa [Node.children_eq, ← hcells]

theorem Receptive.over {s : Store} {height : Nat} {h : Handle}
    (n : s.Receptive height h) :
    ∀ c ∈ childrenOf [⟨minKey, .child h⟩], s.Suits (height + 1) (.child c) := by
  intro c hc
  obtain rfl : c = h := by simpa [childrenOf, Entry.child?] using hc
  exact ⟨n.live, by rw [n.height_eq]⟩

/-- Nodes put into a chain behind one of its nodes lead on to the next. -/
theorem Linked.splice {s s' : Store} {stop h : Handle}
    {left right fresh : List Handle} (hl : s.Linked stop (left ++ h :: right))
    (hnew : s'.Linked (s.node h).right (h :: fresh))
    (hold : ∀ k ∈ left ++ right, (s'.node k).right = (s.node k).right) :
    s'.Linked stop (left ++ (h :: fresh) ++ right) := by
  obtain ⟨hleft, hright, hrest⟩ := linked_append.mp hl
  rw [List.append_assoc]
  refine linked_append.mpr ⟨?_, linked_append.mpr ⟨hright ▸ hnew, ?_⟩⟩
  · exact (linked_congr fun k hk =>
      hold k (List.mem_append_left _ hk)).mpr hleft
  · exact (linked_congr fun k hk =>
      hold k (List.mem_append_right _ hk)).mpr hrest

end Store

namespace Insert

/-- A run that may be merged into a node of that height. -/
structure Apt (s : Store) (height : Nat) (target : Handle) (run : List Edit) :
    Prop where
  nonempty : run ≠ []
  ascending : Ascending (Edit.keys run)
  aimed : ∀ e ∈ run, e.target = target
  suits : ∀ e ∈ run, ∃ x, e.payload = .entry x ∧ s.Suits height x

namespace Apt

variable {s s' : Store} {height : Nat} {target : Handle} {run : List Edit}
  (r : Apt s height target run)
include r

theorem target_eq : (run.head?.map (·.target)).getD .null = target := by
  obtain ⟨e, rest, rfl⟩ := List.exists_cons_of_ne_nil r.nonempty
  exact r.aimed e (by simp)

theorem merges : ∀ e ∈ run, e.Merges := by
  intro e he
  obtain ⟨x, hx, -⟩ := r.suits e he
  rw [Edit.Merges, Edit.cell, hx]

theorem mono (hs : s.Steady s') : Apt s' height target run where
  nonempty := r.nonempty
  ascending := r.ascending
  aimed := r.aimed
  suits e he := by
    obtain ⟨x, hx, hsuits⟩ := r.suits e he
    exact ⟨x, hx, hsuits.mono hs⟩

theorem increasing {cells : List Cell} (hi : Increasing cells) :
    Increasing (mergeCells cells (run.map Edit.cell)) :=
  increasing_mergeCells hi (Edit.increasing_cell r.ascending)

theorem merge_ne_nil (cells : List Cell) :
    mergeCells cells (run.map Edit.cell) ≠ [] := by
  obtain ⟨e, he⟩ := List.exists_mem_of_ne_nil _ r.nonempty
  exact List.ne_nil_of_mem
    (mem_mergeCells_of_mem_new (List.mem_map_of_mem he))

theorem children {cells : List Cell}
    (hc : ∀ c ∈ childrenOf cells, s.Suits height (.child c)) :
    ∀ c ∈ childrenOf (mergeCells cells (run.map Edit.cell)),
      s.Suits height (.child c) := by
  intro c hm
  obtain ⟨d, hd, hchild⟩ := List.mem_filterMap.mp hm
  rcases mem_or_mem_of_mem_mergeCells hd with hd | hd
  · exact hc c (List.mem_filterMap.mpr ⟨d, hd, hchild⟩)
  · obtain ⟨e, he, rfl⟩ := List.mem_map.mp hd
    obtain ⟨x, hx, hsuits⟩ := r.suits e he
    have hentry : e.cell.entry = x := by rw [Edit.cell, hx]
    rwa [← hentry, Entry.child?_eq_some_iff.mp hchild] at hsuits

end Apt

/-- Cells have been split: they stand in the node `first` and in the `fresh`
ones, and for each of these a link is staged for the parent of the node they
come from. -/
structure Split (s s' : Store) (base : Node) (first : Handle)
    (cells : List Cell) (fresh : List Handle) (staged : List Edit) : Prop where
  count : (first :: fresh).length = nodesFor cells.length
  contents_eq : s'.contents (first :: fresh) = cells
  live : ∀ k ∈ first :: fresh, s'.contains k = true
  fits : ∀ k ∈ first :: fresh, (s'.node k).size ≤ Node.capacity
  half : fresh ≠ [] → ∀ k ∈ first :: fresh, Node.half ≤ (s'.node k).size
  height_eq : ∀ k ∈ first :: fresh, (s'.node k).height = base.height
  parent_eq : ∀ k ∈ first :: fresh, (s'.node k).parent = base.parent
  /-- Each is linked to the next, and the last to what was on the right. -/
  linked : s'.Linked base.right (first :: fresh)
  staged_eq : staged = fresh.map fun k =>
    .insert (s'.node k).firstKey (.child k) base.parent
  /-- Of the other nodes in use none is written; a child has a new owner. -/
  frame : Store.Frame s s' [first] (first :: childrenOf cells)

/-- What was poured out is split: chunks are as many as the cells need nodes,
and each node after the first has its link staged for the parent. -/
theorem Poured.split {s₀ s s' : Store} {base : Node} {first : Handle}
    {cells : List Cell} {fresh : List Handle} (hne : cells ≠ [])
    (h : Poured s s' base first (chunks cells) fresh)
    (hf : Store.Frame s₀ s' [first] (first :: childrenOf cells)) :
    Split s₀ s' base first cells fresh
      (stagedFor s' base.parent fresh) where
  count := by
    rw [← length_chunks_eq hne, ← h.cells_eq, List.length_map]
  contents_eq := by rw [h.contents_eq, flatten_chunks]
  live := h.live
  fits k _ := (s'.node k).length_le
  half hfresh k hk := by
    have hmem : (s'.node k).cells ∈ chunks cells :=
      h.cells_eq ▸ List.mem_map_of_mem hk
    refine half_le_of_mem_chunks (Nat.le_of_not_lt fun hlt => hfresh ?_) hmem
    have hcells := h.cells_eq
    rw [chunks_of_length_le (by simp only [Node.capacity, Node.half] at *; omega),
      List.map_cons, List.cons.injEq, List.map_eq_nil_iff] at hcells
    exact hcells.2
  height_eq := h.height_eq
  parent_eq := h.parent_eq
  linked := h.linked
  staged_eq := rfl
  frame := hf

theorem Split.steady {s s' : Store} {base : Node} {first : Handle}
    {cells : List Cell} {fresh : List Handle} {staged : List Edit}
    (h : Split s s' base first cells fresh staged)
    (hbase : s.contains first = true → base.height = (s.node first).height) :
    s.Steady s' := by
  intro k hk
  refine ⟨h.frame.contains hk, ?_⟩
  by_cases hkf : k = first
  · subst hkf
    rw [h.height_eq k List.mem_cons_self, hbase hk]
  · exact h.frame.height hk (by simpa using hkf)

/-- Runs may be merged into the nodes that cells have been split into: these are
of the same height, and lead to nodes one level down. -/
theorem Split.receptive {s s' : Store} {base : Node} {first : Handle}
    {cells : List Cell} {fresh : List Handle} {staged : List Edit}
    (h : Split s s' base first cells fresh staged) (hs : s.Steady s')
    (hi : Increasing cells)
    (hch : ∀ c ∈ childrenOf cells, s.Suits base.height (.child c)) :
    ∀ k ∈ first :: fresh, s'.Receptive base.height k := by
  intro k hk
  refine ⟨h.live k hk, h.height_eq k hk,
    Store.increasing_cells (h.contents_eq ▸ hi) hk,
    fun c hc => (hch c ?_).mono hs⟩
  rw [← h.contents_eq]
  exact Store.mem_childrenOf_contents.mpr ⟨k, hk, hc⟩

section Rewrite

variable {t : Tree} {height : Nat} {run : List Edit}

/-- **The splitting law.** A run splits the node that it is merged into, or
there are not enough slots for the nodes after the first. -/
theorem rewrite_splits {h : Handle} (hcap : t.store.capacity ≤ Handle.nullRaw)
    (n : t.store.Receptive height h) (r : Apt t.store height h run) :
    Yields (Short t.store.capacity (t.store.allocated +
        (nodesFor (mergeCells (t.store.node h).cells
          (run.map Edit.cell)).length - 1)))
      (rewrite height t run) fun step => step.state.root = t.root ∧ ∃ fresh,
        t.store.Taken step.state.store fresh ∧
        Split t.store step.state.store (t.store.node h) h
          (mergeCells (t.store.node h).cells (run.map Edit.cell)) fresh
          step.staged := by
  have hch := r.children n.children
  have hbase : base t height ((run.head?.map (·.target)).getD .null) =
      .ok (h, t.store.node h, t) := by
    rw [r.target_eq]
    exact base_of_live height n.live n.increasing
  have hpour := rewrite_pours hbase n.height_eq r.merges
    ⟨hcap, n.live, r.increasing n.increasing, fun c hc => (hch c hc).1,
      fun hc => ?_⟩
  · rw [length_chunks_eq (r.merge_ne_nil _)] at hpour
    refine hpour.mono ?_
    rintro step ⟨hroot, fresh, hpoured, hstaged⟩
    have hf := hpoured.frame
    rw [flatten_chunks] at hf
    exact ⟨hroot, fresh, hpoured.taken,
      hstaged ▸ hpoured.split (r.merge_ne_nil _) hf⟩
  · have hheight := (hch h hc).2
    rw [n.height_eq] at hheight
    omega

/-- **The splitting law over the root.** A run aimed at null splits a new root
that holds the old one, or there are not enough slots for the new nodes. -/
theorem rewrite_splits_over (hcap : t.store.capacity ≤ Handle.nullRaw)
    (n : t.store.Receptive height t.root) (hlim : height < heightLimit)
    (r : Apt t.store (height + 1) .null run) :
    Yields (Short t.store.capacity (t.store.allocated +
        nodesFor (mergeCells [⟨minKey, .child t.root⟩]
          (run.map Edit.cell)).length))
      (rewrite (height + 1) t run) fun step => ∃ fresh,
        t.store.Taken step.state.store (step.state.root :: fresh) ∧
        Split t.store step.state.store (overRoot (height + 1) t.root)
          step.state.root (mergeCells [⟨minKey, .child t.root⟩]
            (run.map Edit.cell)) fresh step.staged := by
  have hne := r.merge_ne_nil [⟨minKey, .child t.root⟩]
  have hch := r.children n.over
  have hpos : 1 ≤ nodesFor (mergeCells [⟨minKey, .child t.root⟩]
      (run.map Edit.cell)).length := by
    rw [← length_chunks_eq hne]
    exact List.length_pos_iff.mpr (chunks_ne_nil _)
  rcases grow_cases (height + 1) (Store.read_eq_ok n.live n.increasing)
    (by rw [n.height_eq]) (by rw [n.height_eq]; exact hlim) hcap
    with ⟨s, hscap, hall, hnode, hgrow⟩ | ⟨hfull, hle⟩
  · have hf := Store.frame_of_allocate hscap hall hnode
    have htaken := Store.Taken.of_allocate hall
    have hbase : base t (height + 1) ((run.head?.map (·.target)).getD .null) =
        .ok (.slot t.store.allocated, overRoot (height + 1) t.root,
          ⟨s, .slot t.store.allocated⟩) := by
      rw [r.target_eq, base]
      exact hgrow
    have hpour := rewrite_pours hbase rfl r.merges
      ⟨hscap ▸ hcap, htaken.live (by simp),
        r.increasing (List.pairwise_singleton _ _),
        fun c hc => hf.contains (hch c hc).1, fun hc => ?_⟩
    · rw [show (overRoot (height + 1) t.root).cells =
        [⟨minKey, .child t.root⟩] from rfl, length_chunks_eq hne, hscap, hall,
        Nat.add_assoc, Nat.add_sub_cancel' hpos] at hpour
      refine hpour.mono ?_
      rintro step ⟨hroot, fresh, hpoured, hstaged⟩
      have hframe := hf.of_taken htaken hpoured.frame
      rw [flatten_chunks] at hframe
      refine ⟨fresh, ?_, ?_⟩
      · rw [hroot]
        exact htaken.trans hpoured.taken hf.allocated hpoured.frame.allocated
      · rw [hroot, hstaged]
        exact hpoured.split hne (hframe.mono (List.nil_subset _)
          (List.subset_cons_self _ _))
    · have hlive := (hch _ hc).1
      rw [htaken.unused (List.mem_singleton_self _)] at hlive
      cases hlive
  · rw [rewrite, r.target_eq, base]
    show Yields _ (grow t (height + 1) >>= fun _ => _) _
    rw [hfull]
    exact ⟨rfl, by omega⟩

end Rewrite

/-! ## The chain of a level that is being rewritten

A tree is in no order while one of its levels is rewritten. What is kept is
what a walk down to the level and along it needs, and so the law of a run can
be told of any state between two runs. -/

/-- The level `height` of a tree of the height `top` while runs are merged into
it. -/
structure Tier (t : Tree) (top height : Nat) (row : List Handle) : Prop where
  capacity_le : t.store.capacity ≤ Handle.nullRaw
  path : ∃ path, Tree.FirstPath t.store path height top ∧ path top = t.root ∧
    row.head? = some (path height)
  le_top : height ≤ top
  top_lt : top < t.store.allocated
  nodup : row.Nodup
  linked : t.store.Linked .null row
  receptive : ∀ h ∈ row, t.store.Receptive height h

namespace Tier

variable {t : Tree} {top height : Nat} {row : List Handle}
  (w : Tier t top height row)
include w

theorem level_eq : t.level height = .ok row := by
  obtain ⟨path, hpath, htop, hhead⟩ := w.path
  exact Tree.level_of_levelNodes (hpath.levelNodes_eq w.le_top htop w.top_lt
    hhead (fun h hh => (w.receptive h hh).live)
    (fun h hh => (w.receptive h hh).increasing) w.linked w.nodup)

theorem height_eq : t.height = .ok top := by
  obtain ⟨path, hpath, htop, -⟩ := w.path
  rw [Tree.height, ← htop,
    Store.read_eq_ok (hpath.live top w.le_top (Nat.le_refl _))
      (hpath.increasing top w.le_top (Nat.le_refl _))]
  exact congrArg Except.ok (hpath.height_eq top w.le_top (Nat.le_refl _))

/-- **One run.** The nodes that it takes follow the one it is merged into, and
the level can be walked as before. -/
theorem splice {t' : Tree} {cells : List Cell} {fresh : List Handle}
    {staged : List Edit} {h : Handle} (hh : h ∈ row)
    (hroot : t'.root = t.root) (htaken : t.store.Taken t'.store fresh)
    (hi : Increasing cells)
    (hch : ∀ c ∈ childrenOf cells, t.store.Suits height (.child c))
    (hs : Split t.store t'.store (t.store.node h) h cells fresh staged) :
    ∃ row', Tier t' top height row' ∧ row ⊆ row' := by
  have n := w.receptive h hh
  have hsteady := hs.steady fun _ => rfl
  obtain ⟨left, right, rfl⟩ := List.append_of_mem hh
  have hperm : (left ++ (h :: fresh) ++ right).Perm
      (fresh ++ (left ++ h :: right)) := by
    have hcomm : (left ++ [h] ++ fresh ++ right).Perm
        (fresh ++ (left ++ [h]) ++ right) :=
      List.perm_append_comm.append_right right
    simpa using hcomm
  have hbody : ∀ k ∈ left ++ h :: right, k ≠ h →
      (t'.store.node k).body = (t.store.node k).body := fun k hk hne =>
    hs.frame.body k (w.receptive k hk).live (by simpa using hne)
  have hreceptive : ∀ k ∈ left ++ (h :: fresh) ++ right,
      t'.store.Receptive height k := by
    intro k hk
    by_cases hks : k ∈ h :: fresh
    · rw [← n.height_eq]
      exact hs.receptive hsteady hi (by rwa [n.height_eq]) k hks
    · obtain ⟨hkh, hkf⟩ := not_or.mp (mt List.mem_cons.mpr hks)
      have hold := (List.mem_append.mp (hperm.subset hk)).resolve_left hkf
      exact (w.receptive k hold).of_body_eq hsteady (hbody k hold hkh)
  refine ⟨left ++ (h :: fresh) ++ right, ⟨?_, ?_, w.le_top, ?_, ?_, ?_,
    hreceptive⟩, fun k hk => hperm.symm.subset (List.mem_append_right _ hk)⟩
  · rw [hs.frame.capacity]
    exact w.capacity_le
  · obtain ⟨path, hpath, htop, hhead⟩ := w.path
    have hhead' : (left ++ (h :: fresh) ++ right).head? =
        some (path height) := by
      rw [← hhead]
      cases left <;> rfl
    have hfirst := hreceptive _ (List.mem_of_mem_head? hhead')
    refine ⟨path, hpath.congr (fun k => hs.frame.contains) (fun k hk hkt => ?_)
      hfirst.increasing hfirst.height_eq, htop.trans hroot.symm, hhead'⟩
    refine hs.frame.body _ (hpath.live k (Nat.le_of_lt hk) hkt) ?_
    intro heq
    have hheight := hpath.height_eq k (Nat.le_of_lt hk) hkt
    rw [List.mem_singleton.mp heq, n.height_eq] at hheight
    omega
  · exact Nat.lt_of_lt_of_le w.top_lt hs.frame.allocated
  · refine hperm.nodup_iff.mpr (List.nodup_append.mpr ⟨htaken.nodup, w.nodup,
      ?_⟩)
    rintro k hk l hl rfl
    have hlive := (w.receptive k hl).live
    rw [htaken.unused hk] at hlive
    cases hlive
  · obtain ⟨hnot, -⟩ := List.nodup_cons.mp (List.nodup_middle.mp w.nodup)
    refine w.linked.splice hs.linked fun k hk => ?_
    refine Node.right_eq_of_body_eq (hbody k ?_ fun heq => hnot (heq ▸ hk))
    exact List.perm_middle.symm.subset (List.mem_cons_of_mem _ hk)

theorem rewrite {h : Handle} (hh : h ∈ row) {run : List Edit}
    (r : Apt t.store height h run) :
    Yields (fun _ => True) (rewrite height t run) fun step =>
      (∃ row', Tier step.state top height row' ∧ row ⊆ row') ∧
        t.store.Steady step.state.store := by
  have n := w.receptive h hh
  refine ((rewrite_splits w.capacity_le n r).weaken fun _ _ => trivial).mono ?_
  rintro step ⟨hroot, fresh, htaken, hs⟩
  exact ⟨w.splice hh hroot htaken (r.increasing n.increasing)
    (r.children n.children) hs, hs.steady fun _ => rfl⟩

end Tier

theorem tier_over {t : Tree} {height : Nat} {run : List Edit}
    (hcap : t.store.capacity ≤ Handle.nullRaw)
    (n : t.store.Receptive height t.root) (hlim : height < heightLimit)
    (hall : height < t.store.allocated)
    (r : Apt t.store (height + 1) .null run) :
    Yields (fun _ => True) (rewrite (height + 1) t run) fun step =>
      ∃ row, Tier step.state (height + 1) (height + 1) row := by
  refine ((rewrite_splits_over hcap n hlim r).weaken fun _ _ => trivial).mono ?_
  rintro step ⟨fresh, htaken, hs⟩
  have hunused := htaken.unused List.mem_cons_self
  have hsteady := hs.steady fun hlive => by
    rw [hunused] at hlive
    cases hlive
  have hreceptive := hs.receptive hsteady
    (r.increasing (List.pairwise_singleton _ _)) (r.children n.over)
  have hroot := hreceptive _ List.mem_cons_self
  have hcount := htaken.allocated_eq hs.frame.allocated
  refine ⟨_, ?_, ⟨fun _ => step.state.root, ⟨?_, ?_, ?_, ?_⟩, rfl, rfl⟩,
    Nat.le_refl _, ?_, htaken.nodup, hs.linked, hreceptive⟩
  · rw [hs.frame.capacity]
    exact hcap
  · exact fun _ _ _ => hroot.live
  · exact fun _ _ _ => hroot.increasing
  · exact fun k h₁ h₂ => hroot.height_eq.trans (Nat.le_antisymm h₁ h₂)
  · exact fun k h₁ h₂ => absurd h₂ (Nat.not_lt.mpr h₁)
  · rw [hcount, List.length_cons]
    omega

/-! ## Where a batch comes to -/

namespace Rising

variable {t : Tree} {row : Nat → List Handle} {height gap : Nat}
  {items : List Pair} {edits : List Edit}

theorem suits_due (r : Rising t row height gap items edits) {c : Cell}
    (hc : c ∈ t.store.due row items gap) : t.store.Suits gap c.entry := by
  cases gap with
  | zero =>
      rcases List.mem_cons.mp (show c ∈ leafCells items from hc) with rfl | hc
      · rfl
      · obtain ⟨p, -, rfl⟩ := List.mem_map.mp hc
        rfl
  | succ k =>
      obtain ⟨h, hh, rfl⟩ := Store.mem_links.mp hc
      have hl := r.level k (Nat.le_of_succ_le_succ r.gap_le)
      exact ⟨hl.live h hh, by rw [hl.height_eq h hh]⟩

theorem apt (r : Rising t row height gap items edits) {run : List Edit}
    (hrun : run ∈ Edit.runs edits) : Apt t.store gap (Edit.aim run) run where
  nonempty := fun h => List.nil_notMem_splitBy _ _ (h ▸ hrun)
  ascending := by
    refine r.ascending.sublist (List.Sublist.map _ ?_)
    have h := List.sublist_flatten_of_mem hrun
    rwa [Edit.runs, List.flatten_splitBy] at h
  aimed _ he := Edit.target_eq_aim hrun he
  suits e he := by
    have hmem : e ∈ edits := by
      have h := List.mem_flatten_of_mem hrun he
      rwa [Edit.runs, List.flatten_splitBy] at h
    refine ⟨e.cell.entry, r.merges e hmem, r.suits_due ?_⟩
    rw [← r.merge_eq]
    exact mem_mergeCells_of_mem_new (List.mem_map_of_mem hmem)

/-- A level that a batch has come to. Above the leaves its cells are due,
since no edit has the key of one. -/
theorem tier (r : Rising t row height gap items edits) (hg : gap ≤ height)
    (hleaf : gap = 0 → childrenOf (t.store.contents (row gap)) = []) :
    Tier t height gap (row gap) where
  capacity_le := Nat.le_of_lt r.nameable
  path := by
    obtain ⟨h, rest, hrow, -⟩ := (r.level gap hg).exists_cons
    exact ⟨_, r.walkable.path.mono (Nat.zero_le _), r.walkable.top,
      by simp [Tree.rowHead, hrow]⟩
  le_top := hg
  top_lt := r.height_lt
  nodup := (r.level gap hg).nodup
  linked := (r.level gap hg).linked
  receptive h hh := by
    have hl := r.level gap hg
    refine ⟨hl.live h hh, hl.height_eq h hh, hl.increasing_cells hh,
      fun c hc => ?_⟩
    have hm : c ∈ childrenOf (t.store.contents (row gap)) :=
      Store.mem_childrenOf_contents.mpr ⟨h, hh, hc⟩
    by_cases hzero : gap = 0
    · rw [hleaf hzero] at hm
      cases hm
    · obtain ⟨d, hd, hchild⟩ := List.mem_filterMap.mp hm
      have hstanding : d ∈ standing t row height gap := by
        rwa [standing, if_pos hg]
      have hdue : d ∈ t.store.due row items gap := by
        rw [← r.merge_eq, mem_mergeCells r.increasing_standing
          (Edit.increasing_cell r.ascending)]
        refine Or.inr ⟨hstanding, fun n hn heq => ?_⟩
        obtain ⟨e, he, rfl⟩ := List.mem_map.mp hn
        exact r.absent hzero e he d hstanding heq.symm
      have hsuits := r.suits_due hdue
      rwa [Entry.child?_eq_some_iff.mp hchild] at hsuits

theorem receptive_root (r : Rising t row height (height + 1) items edits) :
    t.store.Receptive height t.root := by
  have hl := r.level height (Nat.le_refl _)
  refine ⟨hl.live _ r.root_mem, r.root_height,
    hl.increasing_cells r.root_mem, fun c hc => ?_⟩
  have hm : c ∈ childrenOf (t.store.contents (row height)) :=
    Store.mem_childrenOf_contents.mpr ⟨t.root, r.root_mem, hc⟩
  cases height with
  | zero =>
      rw [r.leaves (Nat.succ_pos 0), childrenOf_leafCells] at hm
      cases hm
  | succ k =>
      rw [(r.spans k (Nat.lt_succ_self k) (by omega)).contents_eq,
        Store.childrenOf_links] at hm
      have hlow := r.level k (Nat.le_succ k)
      exact ⟨hlow.live c hm, by rw [hlow.height_eq c hm]⟩

theorem reached_within (r : Rising t row height gap items edits)
    (hg : gap ≤ height)
    (hleaf : gap = 0 → childrenOf (t.store.contents (row gap)) = [])
    {c : Crew Tree}
    (hc : Crew.Reaches (Insert.rewrite gap) t (Edit.runs edits) c) :
    ∃ row', Tier c.state height gap row' := by
  have hnd := (r.level gap hg).nodup
  obtain ⟨sites, hsites⟩ := r.exists_sites hg
  have hruns : (Edit.runs edits).Nodup := by
    rw [← hsites.edits_eq,
      Site.runs_edits (hsites.row_eq ▸ hnd) hsites.aimed]
    exact Site.nodup_runs (hsites.row_eq ▸ hnd) hsites.aimed
  have hinv := hc.invariant (A := fun _ => True) (P := fun _ t' =>
    (∃ row', Tier t' height gap row' ∧ row gap ⊆ row') ∧
      t.store.Steady t'.store) (fun _ _ _ _ h => h) ?_ hruns
    ⟨⟨_, r.tier hg hleaf, List.Subset.refl _⟩, fun k hk => ⟨hk, rfl⟩⟩
  · obtain ⟨⟨row', w, -⟩, -⟩ := hinv.1
    exact ⟨row', w⟩
  rintro log t' run ⟨⟨row', w, hsub⟩, hsteady⟩ hrun -
  have ha := r.apt hrun
  have haim : Edit.aim run ∈ row gap := by
    obtain ⟨e, he⟩ := List.exists_mem_of_ne_nil _ ha.nonempty
    have hmem : e ∈ edits := by
      have h := List.mem_flatten_of_mem hrun he
      rwa [Edit.runs, List.flatten_splitBy] at h
    rw [← ha.aimed e he]
    exact (r.within hg).1.target_mem hmem
  refine (w.rewrite (hsub haim) (ha.mono hsteady)).mono ?_
  rintro step ⟨⟨row'', w', hsub'⟩, hsteady'⟩
  exact ⟨⟨row'', w', List.Subset.trans hsub hsub'⟩, hsteady.trans hsteady'⟩

/-- Over the root there is one run, which either waits or has built the level
that is to be the root. -/
theorem reached_above (r : Rising t row height gap items edits)
    (hg : height < gap) (hne : edits ≠ []) {c : Crew Tree}
    (hc : Crew.Reaches (Insert.rewrite gap) t (Edit.runs edits) c) :
    c.state = t ∨ ∃ row', Tier c.state (height + 1) gap row' := by
  obtain rfl : gap = height + 1 := Nat.le_antisymm r.gap_le hg
  have hnull := (r.above hg).1
  have hruns := Edit.runs_eq_singleton hne hnull
  have ha : Apt t.store (height + 1) .null edits := by
    have hmem : edits ∈ Edit.runs edits := by simp [hruns]
    have h := r.apt hmem
    obtain ⟨e, he⟩ := List.exists_mem_of_ne_nil _ hne
    rwa [← h.aimed e he, hnull e he] at h
  have hlim := r.height_lt_heightLimit
  have hinv := hc.invariant (A := fun _ => True) (P := fun log t' =>
    t' = t ∨ (∃ row', Tier t' (height + 1) (height + 1) row') ∧
      edits ∈ log.runs) ?_ ?_ (by simp [hruns]) (Or.inl rfl)
  · exact hinv.1.imp_right And.left
  · rintro l m t' hp (h | ⟨w, hm⟩)
    · exact Or.inl h
    · exact Or.inr ⟨w, (hp.map _).subset hm⟩
  · rintro log t' run h hrun hnew
    rw [hruns, List.mem_singleton] at hrun
    subst hrun
    obtain rfl | ⟨-, hm⟩ := h
    · refine (tier_over (Nat.le_of_lt r.nameable) r.receptive_root (by omega)
        r.height_lt ha).mono fun step w => Or.inr ⟨w, ?_⟩
      simp [RunLog.runs]
    · exact absurd hm hnew

/-- **In the middle of a level.** Wherever a crew has come to on a level of the
tree, the level can be walked. Over the root it is not there yet, or the crew
has been done with it. -/
theorem reached (r : Rising t row height gap items edits)
    (hleaf : gap = 0 → childrenOf (t.store.contents (row gap)) = [])
    (hne : height < gap → edits ≠ []) {c : Crew Tree}
    (hc : Crew.Reaches (Insert.rewrite gap) t (Edit.runs edits) c) :
    (∃ top row', Tier c.state top gap row') ∨
      gap = height + 1 ∧ c.state = t := by
  by_cases hg : gap ≤ height
  · exact Or.inl ⟨height, r.reached_within hg hleaf hc⟩
  · have hg := Nat.lt_of_not_le hg
    obtain h | h := r.reached_above hg (hne hg) hc
    · exact Or.inr ⟨Nat.le_antisymm r.gap_le hg, h⟩
    · exact Or.inl ⟨_, h⟩

end Rising

end Insert

end LevelIndex
