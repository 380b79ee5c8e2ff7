import LevelIndex.Proofs.WellFormed
import LevelIndex.Proofs.Yields
import LevelIndex.Tree.Shape

/-!
# Walking a tree

Walks are bounded by the number of slots in use, and on a well-formed tree that
is enough: a descent along first children passes one node of each level, and the
chain of a level passes each of its nodes once. So the walks of such a tree find
its rows (`Walkable.levelNodes_eq`), and what it stores can be read off them.

No more is needed for it than that the first nodes of the levels are a path of
first children (`Walkable`), and so much also holds of a tree in the middle of a
batch. The path is what the walks of a single level are told by
(`FirstPath.levelNodes_eq`): only the nodes on the way down have to be as they
should, and then the level itself.

What is stored is what the leaves are read as, without the sentinel
(`Walkable.items_of_pairs`), and the count leaves out one cell, whichever it is
(`Walkable.length_eq`). The two agree where the sentinel is there, as it is in
an intact tree.
-/

namespace LevelIndex

theorem overHeights_eq_ok {ε α : Type} {f : Nat → Except ε α} {g : Nat → α} :
    ∀ count height, (∀ k, k < height + count → f k = .ok (g k)) →
      overHeights f count height =
        .ok ((List.range' height count).map g)
  | 0, _, _ => rfl
  | count + 1, height, h => by
      rw [overHeights, h height (by omega), ok_bind,
        overHeights_eq_ok count (height + 1) fun k hk => h k (by omega)]
      rfl

namespace Store

variable {s : Store} {row : List Handle}

/-- The chain that starts at a row's first node is the row, if as many steps are
allowed as the row has nodes. -/
theorem chain_eq (hlive : ∀ h ∈ row, s.contains h = true)
    (hinc : ∀ h ∈ row, Increasing (s.node h).cells) (hl : s.Linked .null row)
    {steps : Nat} (hs : row.length ≤ steps) :
    Tree.chain s steps (row.head?.getD .null) =
      .ok (row.map fun h => (h, s.node h)) := by
  induction row generalizing steps with
  | nil => cases steps <;> rfl
  | cons h row ih =>
      obtain ⟨steps, rfl⟩ : ∃ n, steps = n + 1 :=
        ⟨steps - 1, by simp at hs; omega⟩
      have hread := read_eq_ok (hlive h (by simp)) (hinc h (by simp))
      have hle : row.length ≤ steps := by simpa using hs
      have hrest := ih (fun k hk => hlive k (List.mem_cons_of_mem _ hk))
        (fun k hk => hinc k (List.mem_cons_of_mem _ hk)) hl.2 hle
      rw [List.head?_cons, Option.getD_some,
        Tree.chain.eq_3 s h steps (ne_null_of_contains (hlive h (by simp))),
        hread]
      show (Tree.chain s steps (s.node h).right >>= fun rest => _) = _
      rw [hl.1, hrest]
      rfl

theorem flatMap_cells (s : Store) (row : List Handle) :
    ((row.map fun h => (h, s.node h)).flatMap fun q => q.2.cells) =
      s.contents row := by
  rw [List.flatMap_map]
  rfl

theorem head_child {lower upper : List Handle} {h : Handle}
    (hne : (s.node h).cells ≠ [])
    (hc : s.contents (h :: upper) = s.links lower) :
    (s.node h).cells.head?.bind (·.entry.child?) = lower.head? := by
  obtain ⟨c, rest, hcells, -⟩ := Node.exists_cons hne
  cases lower with
  | nil => simp [hcells] at hc
  | cons l lower =>
      rw [contents_cons, hcells, links_cons] at hc
      obtain ⟨rfl, -⟩ := List.cons.inj hc
      simp [hcells, Entry.child?]

end Store

namespace Tree

variable {t : Tree}

/-- A path of first children, from the height `from` down to the height `to`. -/
structure FirstPath (s : Store) (path : Nat → Handle) (bottom top : Nat) :
    Prop where
  live : ∀ k, bottom ≤ k → k ≤ top → s.contains (path k) = true
  increasing : ∀ k, bottom ≤ k → k ≤ top → Increasing (s.node (path k)).cells
  height_eq : ∀ k, bottom ≤ k → k ≤ top → (s.node (path k)).height = k
  child : ∀ k, bottom ≤ k → k < top →
    (s.node (path (k + 1))).cells.head?.bind (·.entry.child?) = some (path k)

theorem leftmostFrom_succ {height : Nat} {h : Handle} {n : Node}
    (hr : t.store.read h = .ok n) (hn : height ≤ n.height) (steps : Nat) :
    t.leftmostFrom height (steps + 1) h =
      if n.height = height then .ok h
      else match n.cells.head?.bind (·.entry.child?) with
        | some child => t.leftmostFrom height steps child
        | none => .error (.noFirstChild h n) := by
  rw [leftmostFrom, hr, ok_bind]
  by_cases hh : n.height = height
  · rw [if_pos hh, if_pos hh]
  · rw [if_neg hh, if_neg hh]
    refine (if_neg (Nat.not_lt.mpr hn)).trans ?_
    cases n.cells.head?.bind (·.entry.child?) <;> rfl

theorem FirstPath.leftmostFrom_eq {path : Nat → Handle} {bottom : Nat} :
    ∀ {d steps : Nat}, FirstPath t.store path bottom (bottom + d) → d < steps →
      t.leftmostFrom bottom steps (path (bottom + d)) = .ok (path bottom)
  | d, 0, _, hs => absurd hs (Nat.not_lt_zero d)
  | d, steps + 1, hp, hs => by
      have hle : bottom ≤ bottom + d := Nat.le_add_right _ _
      have hread :=
        Store.read_eq_ok (hp.live _ hle (Nat.le_refl _))
          (hp.increasing _ hle (Nat.le_refl _))
      have hheight := hp.height_eq _ hle (Nat.le_refl _)
      rw [leftmostFrom_succ hread (by omega), hheight]
      cases d with
      | zero => rw [if_pos (Nat.add_zero _), Nat.add_zero]
      | succ d =>
          rw [if_neg (by omega), ← Nat.add_assoc,
            hp.child (bottom + d) (by omega) (by omega)]
          refine leftmostFrom_eq (d := d) ⟨?_, ?_,
            ?_, ?_⟩ (by omega)
          · intro k h₁ h₂
            exact hp.live k h₁ (by omega)
          · intro k h₁ h₂
            exact hp.increasing k h₁ (by omega)
          · intro k h₁ h₂
            exact hp.height_eq k h₁ (by omega)
          · intro k h₁ h₂
            exact hp.child k h₁ (by omega)

theorem FirstPath.leftmostAt_eq {path : Nat → Handle} {bottom top : Nat}
    (hp : FirstPath t.store path bottom top) (hle : bottom ≤ top)
    (htop : path top = t.root) (hlt : top < t.store.allocated) :
    t.leftmostAt bottom = .ok (path bottom) := by
  obtain ⟨d, rfl⟩ : ∃ d, top = bottom + d := ⟨top - bottom, by omega⟩
  rw [leftmostAt, ← htop, hp.leftmostFrom_eq (by omega)]

theorem FirstPath.mono {s : Store} {path : Nat → Handle}
    {bottom bottom' top : Nat} (hp : FirstPath s path bottom top)
    (hle : bottom ≤ bottom') : FirstPath s path bottom' top where
  live k h := hp.live k (Nat.le_trans hle h)
  increasing k h := hp.increasing k (Nat.le_trans hle h)
  height_eq k h := hp.height_eq k (Nat.le_trans hle h)
  child k h := hp.child k (Nat.le_trans hle h)

/-- A path stays one while its nodes but the lowest are left alone, whoever owns
them. The lowest may be rewritten, as long as it is of the same height. -/
theorem FirstPath.congr {s s' : Store} {path : Nat → Handle} {bottom top : Nat}
    (hp : FirstPath s path bottom top)
    (hlive : ∀ h, s.contains h = true → s'.contains h = true)
    (hbody : ∀ k, bottom < k → k ≤ top →
      (s'.node (path k)).body = (s.node (path k)).body)
    (hi : Increasing (s'.node (path bottom)).cells)
    (hh : (s'.node (path bottom)).height = bottom) :
    FirstPath s' path bottom top where
  live k h₁ h₂ := hlive _ (hp.live k h₁ h₂)
  increasing k h₁ h₂ := by
    rcases Nat.lt_or_eq_of_le h₁ with h₁ | rfl
    · rw [Node.cells_eq_of_body_eq (hbody k h₁ h₂)]
      exact hp.increasing k (Nat.le_of_lt h₁) h₂
    · exact hi
  height_eq k h₁ h₂ := by
    rcases Nat.lt_or_eq_of_le h₁ with h₁ | rfl
    · rw [Node.height_eq_of_body_eq (hbody k h₁ h₂)]
      exact hp.height_eq k (Nat.le_of_lt h₁) h₂
    · exact hh
  child k h₁ h₂ := by
    rw [Node.cells_eq_of_body_eq (hbody (k + 1) (by omega) h₂)]
    exact hp.child k h₁ h₂

/-- The level that a path comes down to is the row that starts there. There are
as many slots in use as the path and the row have nodes, so no walk is cut
short. -/
theorem FirstPath.levelNodes_eq {path : Nat → Handle} {bottom top : Nat}
    (hp : FirstPath t.store path bottom top) (hle : bottom ≤ top)
    (htop : path top = t.root) (hlt : top < t.store.allocated)
    {row : List Handle} (hhead : row.head? = some (path bottom))
    (hlive : ∀ h ∈ row, t.store.contains h = true)
    (hinc : ∀ h ∈ row, Increasing (t.store.node h).cells)
    (hl : t.store.Linked .null row) (hnd : row.Nodup) :
    t.levelNodes bottom = .ok (row.map fun h => (h, t.store.node h)) := by
  have hchain := Store.chain_eq hlive hinc hl
    (Nat.le_succ_of_le (Store.length_le_allocated hnd hlive))
  rw [hhead, Option.getD_some] at hchain
  rw [levelNodes, hp.leftmostAt_eq hle htop hlt]
  exact hchain

theorem level_of_levelNodes {k : Nat} {row : List Handle}
    (h : t.levelNodes k = .ok (row.map fun h => (h, t.store.node h))) :
    t.level k = .ok row := by
  rw [Tree.level, h]
  show Except.ok ((row.map fun h => (h, t.store.node h)).map (·.1)) = _
  rw [List.map_map, show ((·.1) ∘ fun h => (h, t.store.node h)) =
    (id : Handle → Handle) from rfl, List.map_id]

/-- The first node of a row. -/
def rowHead (row : Nat → List Handle) (k : Nat) : Handle :=
  (row k).head?.getD .null

end Tree

namespace Store

variable {s : Store} {row : Nat → List Handle} {height gap bottom : Nat}

/-- The first nodes of the rows are a path, if each has the next one down for
its first child. -/
theorem path_of_rows (hr : ∀ k ≤ height, s.IsRow k (row k))
    (hchild : ∀ k, bottom ≤ k → k < height →
      (s.node (Tree.rowHead row (k + 1))).cells.head?.bind (·.entry.child?) =
        some (Tree.rowHead row k)) :
    Tree.FirstPath s (Tree.rowHead row) bottom height := by
  have hmem : ∀ k ≤ height, Tree.rowHead row k ∈ row k := by
    intro k hk
    obtain ⟨h, rest, hrow⟩ := List.exists_cons_of_ne_nil (hr k hk).occupied
    simp [Tree.rowHead, hrow]
  exact ⟨fun k _ hk => (hr k hk).live _ (hmem k hk),
    fun k _ hk => (hr k hk).increasing_cells (hmem k hk),
    fun k _ hk => (hr k hk).height_eq _ (hmem k hk), hchild⟩

theorem first_child_of_spans (hr : ∀ k ≤ height, s.IsRow k (row k)) {k : Nat}
    (hk : k < height) (hs : s.Spans (row k) (row (k + 1))) :
    (s.node (Tree.rowHead row (k + 1))).cells.head?.bind (·.entry.child?) =
      some (Tree.rowHead row k) := by
  obtain ⟨h, rest, hrow⟩ :=
    List.exists_cons_of_ne_nil (hr k (Nat.le_of_lt hk)).occupied
  obtain ⟨p, upper, hupper⟩ := List.exists_cons_of_ne_nil (hr (k + 1) hk).occupied
  have hp : Tree.rowHead row (k + 1) = p := by simp [Tree.rowHead, hupper]
  rw [hp, head_child ((hr (k + 1) hk).nonempty p (by simp [hupper]))
    (hupper ▸ hs.contents_eq), hrow]
  simp [Tree.rowHead, hrow]

namespace Layers

variable (l : s.Layers row height gap)
include l

theorem path (hchild : ∀ k, bottom ≤ k → k < height →
    (s.node (Tree.rowHead row (k + 1))).cells.head?.bind (·.entry.child?) =
      some (Tree.rowHead row k)) :
    Tree.FirstPath s (Tree.rowHead row) bottom height :=
  path_of_rows (fun _ => l.isRow) hchild

theorem first_child {k : Nat} (hk : k < height) (hg : k + 1 ≠ gap) :
    (s.node (Tree.rowHead row (k + 1))).cells.head?.bind (·.entry.child?) =
      some (Tree.rowHead row k) :=
  first_child_of_spans (fun _ => l.isRow) hk (l.spans k hk hg)

theorem firstPath (hg : gap ≤ bottom) :
    Tree.FirstPath s (Tree.rowHead row) bottom height :=
  l.path fun _ hbk hk => l.first_child hk (by omega)

end Layers

end Store

namespace Tree

variable {t : Tree} {row : Nat → List Handle} {height : Nat} {items : List Pair}

/-- The root is the first node at the top, and the first nodes of the levels are
a path down from it. -/
structure Walkable (t : Tree) (row : Nat → List Handle) (height : Nat) :
    Prop where
  isRow : ∀ k ≤ height, t.store.IsRow k (row k)
  path : FirstPath t.store (rowHead row) 0 height
  top : rowHead row height = t.root
  height_lt : height < t.store.allocated

theorem sum_size (s : Store) (row : List Handle) :
    (row.map fun h => (h, s.node h)).foldr
      (fun (_, n) total => n.size + total) 0
      = (s.contents row).length := by
  induction row with
  | nil => rfl
  | cons h row ih =>
      rw [Store.contents_cons, List.length_append, ← ih]
      rfl

theorem mapM_pair_cell (items : List Pair) :
    (items.map Pair.cell).mapM Cell.pair = .ok items := by
  rw [List.mapM_map, mapM_eq_ok (f := Cell.pair ∘ Pair.cell) (g := id)
    fun p _ => rfl, List.map_id]

namespace Walkable

variable (w : t.Walkable row height)
include w

theorem height_eq : t.height = .ok height := by
  rw [Tree.height, ← w.top, Store.read_eq_ok
    (w.path.live height (Nat.zero_le _) (Nat.le_refl _))
    (w.path.increasing height (Nat.zero_le _) (Nat.le_refl _))]
  exact congrArg Except.ok
    (w.path.height_eq height (Nat.zero_le _) (Nat.le_refl _))

theorem leftmostAt_eq {k : Nat} (hk : k ≤ height) {h : Handle}
    {rest : List Handle} (hrow : row k = h :: rest) :
    t.leftmostAt k = .ok h := by
  have hbot : rowHead row k = h := by simp [rowHead, hrow]
  rw [(w.path.mono (Nat.zero_le k)).leftmostAt_eq hk w.top w.height_lt, hbot]

/-- The walks along a tree find its rows. -/
theorem levelNodes_eq {k : Nat} (hk : k ≤ height) :
    t.levelNodes k = .ok ((row k).map fun h => (h, t.store.node h)) := by
  have hrow := w.isRow k hk
  obtain ⟨h, rest, hcons⟩ := List.exists_cons_of_ne_nil hrow.occupied
  exact (w.path.mono (Nat.zero_le k)).levelNodes_eq hk w.top w.height_lt
    (by simp [rowHead, hcons]) hrow.live (fun _ hh => hrow.increasing_cells hh)
    hrow.linked hrow.nodup

theorem level_eq {k : Nat} (hk : k ≤ height) : t.level k = .ok (row k) :=
  level_of_levelNodes (w.levelNodes_eq hk)

theorem levelSizes_eq : t.levelSizes =
    .ok ((List.range (height + 1)).map fun k => (row k).length) := by
  rw [levelSizes, w.height_eq, ok_bind, List.range_eq_range']
  refine overHeights_eq_ok _ _ fun k hk => ?_
  rw [w.level_eq (by omega)]
  rfl

theorem exists_shape : ∃ shape, t.shape = .ok shape := by
  have hlevels := overHeights_eq_ok (height + 1) 0 fun k hk =>
    w.levelNodes_eq (by omega : k ≤ height)
  exact ⟨_, by rw [Tree.shape, w.height_eq, ok_bind, hlevels]; rfl⟩

/-- What is stored is what the leaves are read as, without the sentinel. -/
theorem items_of_pairs {pairs : List Pair}
    (hp : (t.store.contents (row 0)).mapM Cell.pair = .ok pairs) :
    t.items = .ok (pairs.filter (· ≠ .sentinel)) := by
  rw [Tree.items, w.levelNodes_eq (Nat.zero_le _)]
  show (List.mapM Cell.pair _ >>= fun pairs => _) = _
  rw [Store.flatMap_cells, hp]
  rfl

theorem items_eq (hl : t.store.contents (row 0) = leafCells items)
    (hi : Increasing (leafCells items)) : t.items = .ok items := by
  have hpairs : (leafCells items).mapM Cell.pair =
      .ok (.sentinel :: items) := by
    rw [leafCells, List.mapM_cons, mapM_pair_cell]
    rfl
  have hne : ∀ p ∈ items, p ≠ .sentinel := by
    rintro p hp rfl
    have hlt : minKey < Pair.sentinel.key := List.rel_of_pairwise_cons hi
      (List.mem_map_of_mem hp : Pair.sentinel.cell ∈ _)
    exact absurd hlt (Int64.lt_irrefl (a := minKey))
  rw [w.items_of_pairs (hl ▸ hpairs), List.filter_cons_of_neg (by simp),
    List.filter_eq_self.mpr fun p hp => by simpa using hne p hp]

theorem length_eq {n : Nat}
    (hn : (t.store.contents (row 0)).length = n + 1) : t.length = .ok n := by
  rw [length, w.levelNodes_eq (Nat.zero_le _), ok_bind, sum_size, hn]
  rfl

end Walkable

theorem WellFormed.walkable (w : t.WellFormed row height) :
    t.Walkable row height where
  isRow _ := w.isRow
  path := Store.path_of_rows (fun _ => w.isRow) fun _ _ hk =>
    Store.first_child_of_spans (fun _ => w.isRow) hk (w.spans hk)
  top := by simp [rowHead, w.top]
  height_lt := w.height_lt

theorem WellFormed.exists_pairOf (w : t.WellFormed row height) :
    ∃ pairOf : Cell → Pair, ∀ c ∈ t.store.contents (row 0),
      c.pair = .ok (pairOf c) := by
  have hpair : ∀ c ∈ t.store.contents (row 0), ∃ p, c.pair = .ok p := by
    intro c hc
    obtain ⟨h, hh, hc⟩ := Store.mem_contents.mp hc
    rcases w.leaf h hh c hc with ⟨v, hv, -⟩ | rfl
    · exact ⟨⟨c.key, v⟩, by rw [Cell.pair, hv]⟩
    · exact ⟨.sentinel, rfl⟩
  have : Nonempty Pair := ⟨.sentinel⟩
  choose! pairOf h using hpair
  exact ⟨pairOf, h⟩

/-- What is stored can be listed, and is in key order. Leaving the sentinel out
keeps the order, wherever it stands. -/
theorem WellFormed.exists_items (w : t.WellFormed row height) :
    ∃ items, t.items = .ok items ∧ Ascending (items.map (·.key)) := by
  obtain ⟨pairOf, hpair⟩ := w.exists_pairOf
  let pairs := (t.store.contents (row 0)).map pairOf
  have hkeys : pairs.map (·.key) = (t.store.contents (row 0)).map (·.key) := by
    rw [List.map_map]
    exact List.map_congr_left fun c hc => Cell.pair_eq_ok_key (hpair c hc)
  refine ⟨pairs.filter (· ≠ .sentinel), ?_, ?_⟩
  · exact w.walkable.items_of_pairs (mapM_eq_ok hpair)
  · refine List.Pairwise.sublist (List.filter_sublist.map _) ?_
    rw [hkeys]
    exact ascending_map_key.mpr (w.increasing (Nat.zero_le _))

namespace Intact

theorem walkable (i : t.Intact row height items) : t.Walkable row height :=
  i.wellFormed.walkable

theorem leftmostAt_eq (i : t.Intact row height items) {k : Nat}
    (hk : k ≤ height) {h : Handle} {rest : List Handle}
    (hrow : row k = h :: rest) : t.leftmostAt k = .ok h :=
  i.walkable.leftmostAt_eq hk hrow

theorem levelNodes_eq (i : t.Intact row height items) {k : Nat}
    (hk : k ≤ height) :
    t.levelNodes k = .ok ((row k).map fun h => (h, t.store.node h)) :=
  i.walkable.levelNodes_eq hk

theorem level_eq (i : t.Intact row height items) {k : Nat} (hk : k ≤ height) :
    t.level k = .ok (row k) :=
  i.walkable.level_eq hk

theorem levelSizes_eq (i : t.Intact row height items) : t.levelSizes =
    .ok ((List.range (height + 1)).map fun k => (row k).length) :=
  i.walkable.levelSizes_eq

/-! ## What is stored -/

theorem length_eq (i : t.Intact row height items) :
    t.length = .ok items.length :=
  i.walkable.length_eq (by rw [i.leaves]; simp [leafCells])

theorem isEmpty_eq (i : t.Intact row height items) :
    t.isEmpty = .ok items.isEmpty := by
  rw [isEmpty, i.length_eq]
  cases items <;> rfl

end Intact

end Tree

end LevelIndex
