import LevelIndex.Proofs.Accepted
import LevelIndex.Proofs.Index

/-!
# The sentinel of an accepted tree

The checker asks for order, separators, heights, parents and chains, and admits
the sentinel where it may stand, but does not ask that it is there. In a
well-formed tree the first nodes of all levels start at one key
(`WellFormed.firstKey_rowHead`), and whether the sentinel is there shows in the
first key of the root (`WellFormed.sentinel_iff`).

With the sentinel the leaves hold what they hold where a table is stored
(`WellFormed.leaves_eq_leafCells`), and all answers are those of the table
(`Index.AnswersAs`). Without it they hold pairs only
(`WellFormed.leaves_eq_map_cell`); then no key below the first pair has an
answer, and the count, which leaves out one cell, is one less than the number of
pairs (`accepted_answers_all_iff_sentinel`).
-/

namespace LevelIndex

theorem exists_map_cell {cells : List Cell}
    (h : ∀ c ∈ cells, ∃ v, c.entry = .value v) :
    ∃ items : List Pair, cells = items.map Pair.cell := by
  induction cells with
  | nil => exact ⟨[], rfl⟩
  | cons c cells ih =>
      obtain ⟨v, hv⟩ := h c (by simp)
      obtain ⟨items, hitems⟩ := ih fun d hd => h d (List.mem_cons_of_mem _ hd)
      refine ⟨⟨c.key, v⟩ :: items, ?_⟩
      rw [hitems, List.map_cons, Pair.cell, ← hv]

namespace Tree.WellFormed

variable {t : Tree} {row : Nat → List Handle} {height : Nat}

section First

variable (w : t.WellFormed row height)
include w

theorem exists_rowHead {k : Nat} (hk : k ≤ height) :
    ∃ rest, row k = rowHead row k :: rest := by
  obtain ⟨h, rest, hrow⟩ := List.exists_cons_of_ne_nil (w.occupied hk)
  exact ⟨rest, by simp [rowHead, hrow]⟩

/-- The first node of every level starts at the key that the root starts at: the
first cell of a level is the link of the first node below. -/
theorem firstKey_rowHead {k : Nat} (hk : k ≤ height) :
    (t.store.node (rowHead row k)).firstKey =
      (t.store.node t.root).firstKey := by
  induction hk using Nat.decreasingInduction with
  | self => rw [w.walkable.top]
  | of_succ k hlt ih =>
      obtain ⟨lower, hlower⟩ := w.exists_rowHead (Nat.le_of_lt hlt)
      obtain ⟨upper, hupper⟩ := w.exists_rowHead hlt
      obtain ⟨c, rest, hcells, hkey⟩ := Node.exists_cons
        (w.nonempty _ hlt (rowHead row (k + 1)) (by simp [hupper]))
      have hspans := (w.spans hlt).contents_eq
      rw [hlower, hupper, Store.contents_cons, hcells, Store.links_cons]
        at hspans
      obtain ⟨rfl, -⟩ := List.cons.inj hspans
      rw [← ih, hkey]

theorem exists_first_cell :
    ∃ c rest, t.store.contents (row 0) = c :: rest ∧
      (t.store.node (rowHead row 0)).cells.head? = some c ∧
      c.key = (t.store.node t.root).firstKey := by
  obtain ⟨lower, hlower⟩ := w.exists_rowHead (Nat.zero_le height)
  obtain ⟨c, rest, hcells, hkey⟩ := Node.exists_cons
    (w.nonempty 0 (Nat.zero_le _) (rowHead row 0) (by simp [hlower]))
  refine ⟨c, rest ++ t.store.contents lower, ?_, by simp [hcells], ?_⟩
  · rw [hlower, Store.contents_cons, hcells, List.cons_append]
  · rw [← hkey, w.firstKey_rowHead (Nat.zero_le _)]

theorem value_or_sentinel {c : Cell} (hc : c ∈ t.store.contents (row 0)) :
    (∃ v, c.entry = .value v ∧ c.key ≠ minKey) ∨ c = sentinelCell := by
  obtain ⟨h, hh, hc⟩ := Store.mem_contents.mp hc
  exact w.leaf h hh c hc

theorem exists_value {c : Cell} (hc : c ∈ t.store.contents (row 0))
    (hlt : minKey < c.key) : ∃ v, c.entry = .value v := by
  rcases w.value_or_sentinel hc with ⟨v, hv, -⟩ | rfl
  · exact ⟨v, hv⟩
  · exact absurd hlt Int64.lt_irrefl

theorem sentinel_iff :
    (t.store.node (rowHead row 0)).cells.head? = some sentinelCell ↔
      (t.store.node t.root).firstKey = minKey := by
  obtain ⟨c, rest, hrow, hhead, hkey⟩ := w.exists_first_cell
  rw [hhead, Option.some.injEq, ← hkey]
  refine ⟨fun h => h ▸ rfl, fun h => ?_⟩
  rcases w.value_or_sentinel (c := c) (by simp [hrow]) with ⟨-, -, hne⟩ | hs
  · exact absurd h hne
  · exact hs

theorem leaves_eq_leafCells (hroot : (t.store.node t.root).firstKey = minKey) :
    ∃ items, t.store.contents (row 0) = leafCells items := by
  obtain ⟨c, rest, hrow, hhead, -⟩ := w.exists_first_cell
  obtain rfl : c = sentinelCell :=
    Option.some.inj (hhead.symm.trans (w.sentinel_iff.mpr hroot))
  have hi := w.increasing_leaves
  rw [hrow] at hi
  have hrest : ∀ d ∈ rest, ∃ v, d.entry = .value v := fun d hd =>
    w.exists_value (by simp [hrow, hd]) (List.rel_of_pairwise_cons hi hd)
  obtain ⟨items, hitems⟩ := exists_map_cell hrest
  exact ⟨items, by rw [hrow, hitems, leafCells]⟩

theorem leaves_eq_map_cell (hroot : (t.store.node t.root).firstKey ≠ minKey) :
    ∃ items, t.store.contents (row 0) = items.map Pair.cell ∧
      (∀ p ∈ items, p ≠ .sentinel) ∧ items ≠ [] := by
  obtain ⟨c, rest, hrow, -, hkey⟩ := w.exists_first_cell
  have hlow : minKey < c.key :=
    Int64.lt_of_le_of_ne (minKey_le _) (hkey ▸ hroot.symm)
  have hi := w.increasing_leaves
  have habove : ∀ d ∈ t.store.contents (row 0), minKey < d.key := by
    rw [hrow] at hi ⊢
    exact List.forall_mem_cons.mpr ⟨hlow, fun d hd =>
      Int64.lt_trans hlow (List.rel_of_pairwise_cons hi hd)⟩
  obtain ⟨items, hitems⟩ :=
    exists_map_cell fun d hd => w.exists_value hd (habove d hd)
  refine ⟨items, hitems, ?_, ?_⟩
  · rintro p hp rfl
    have hlt := habove Pair.sentinel.cell (hitems ▸ List.mem_map_of_mem hp)
    exact absurd hlt (Int64.lt_irrefl (a := minKey))
  · rintro rfl
    rw [hrow] at hitems
    cases hitems

end First

end Tree.WellFormed

namespace Index

section Answers

variable {x : Index} {row : Nat → List Handle} {height : Nat}
  (w : x.tree.WellFormed row height)
include w

theorem exists_predecessor_iff {keys : List Key} :
    (∃ answers, x.predecessor keys = .ok answers) ↔
      ∀ key ∈ keys, (x.tree.store.node x.tree.root).firstKey ≤ key := by
  constructor
  · rintro ⟨answers, h⟩ key hkey
    rw [predecessor, mapBlocks_eq_mapM] at h
    obtain ⟨p, hp⟩ := exists_ok_of_mapM h hkey
    obtain ⟨hit, hhit, -⟩ := bind_eq_ok.mp hp
    exact w.exists_search_iff.mp ⟨hit, hhit⟩
  · intro h
    obtain ⟨pairOf, hpair⟩ := w.exists_pairOf
    obtain ⟨answers, hanswers, -⟩ := exists_predecessor w h hpair
    exact ⟨answers, hanswers⟩

theorem exists_get_iff {keys : List Key} :
    (∃ answers, x.get keys = .ok answers) ↔
      ∀ key ∈ keys, (x.tree.store.node x.tree.root).firstKey ≤ key := by
  constructor
  · rintro ⟨answers, h⟩ key hkey
    rw [get, mapBlocks_eq_mapM] at h
    obtain ⟨v, hv⟩ := exists_ok_of_mapM h hkey
    obtain ⟨hit, hhit, -⟩ := bind_eq_ok.mp hv
    exact w.exists_search_iff.mp ⟨hit, hhit⟩
  · intro h
    exact ⟨_, get_eq_findSome? w h⟩

theorem items_and_length_of_map_cell {items : List Pair}
    (hleaves : x.tree.store.contents (row 0) = items.map Pair.cell)
    (hkeys : ∀ p ∈ items, p ≠ .sentinel) (hne : items ≠ []) :
    x.items = .ok items ∧ ∃ n, x.length = .ok n ∧ n + 1 = items.length := by
  constructor
  · refine (w.walkable.items_of_pairs
      (hleaves ▸ Tree.mapM_pair_cell items)).trans ?_
    rw [List.filter_eq_self.mpr fun p hp => by simpa using hkeys p hp]
  · obtain ⟨n, hn⟩ := Nat.exists_eq_succ_of_ne_zero
      (List.length_eq_zero_iff.not.mpr hne)
    refine ⟨n, w.walkable.length_eq ?_, hn.symm⟩
    rw [hleaves, List.length_map, hn]

end Answers

theorem AnswersAs.predecessor_below {x : Index} {t : Table}
    (h : x.AnswersAs t) {keys : List Key}
    (hkeys : ∀ key ∈ keys, ∀ p ∈ t.items, key < p.key) :
    x.predecessor keys = .ok (keys.map fun _ => .sentinel) := by
  rw [h.predecessor_eq]
  refine congrArg Except.ok (List.map_congr_left fun key hkey => ?_)
  have hnone : (t.items.takeWhile fun p => p.key ≤ key) = [] := by
    cases hitems : t.items with
    | nil => rfl
    | cons p rest =>
        refine List.takeWhile_cons_of_neg ?_
        simpa using hkeys key hkey p (by simp [hitems])
  rw [Table.predecessor, hnone]
  rfl

/-- **The sentinel.** The checker admits a tree without the sentinel. It is in
front of the leaves of an accepted tree if and only if the root's first key is
the least key. Then every key can be searched for, the answers are those of the
table of the pairs stored, keys below all of them answer the sentinel, and the
count is their number. If it is not there, the keys from the root's first on
have answers and no others, and the count is one short. -/
theorem accepted_answers_all_iff_sentinel {x : Index}
    (hc : x.check = .ok (.ok ())) :
    ∃ root first leaf items, x.tree.store.get? x.tree.root = some root ∧
      x.tree.leftmostAt 0 = .ok first ∧
      x.tree.store.get? first = some leaf ∧ x.items = .ok items ∧
      (leaf.cells.head? = some sentinelCell ↔ root.firstKey = minKey) ∧
      (∀ key, (∃ hit, x.tree.search key = .ok hit) ↔ root.firstKey ≤ key) ∧
      (∀ keys, (∃ answers, x.predecessor keys = .ok answers) ↔
        ∀ key ∈ keys, root.firstKey ≤ key) ∧
      (∀ keys, (∃ answers, x.get keys = .ok answers) ↔
        ∀ key ∈ keys, root.firstKey ≤ key) ∧
      (leaf.cells.head? = some sentinelCell → x.AnswersAs ⟨items⟩ ∧
        ∀ keys : List Key, (∀ key ∈ keys, ∀ p ∈ items, key < p.key) →
          x.predecessor keys = .ok (keys.map fun _ => .sentinel)) ∧
      (leaf.cells.head? ≠ some sentinelCell →
        ∃ n, x.length = .ok n ∧ n + 1 = items.length) := by
  obtain ⟨row, height, -, w⟩ := Tree.check_eq_ok_iff.mp (check_eq_ok_iff.mp hc)
  obtain ⟨rest, hrow⟩ := w.exists_rowHead (Nat.zero_le height)
  have hroot := (w.isRow (Nat.le_refl _)).get?_eq w.root_mem
  have hleaf := (w.isRow (Nat.zero_le _)).get?_eq
    (h := Tree.rowHead row 0) (by rw [hrow]; simp)
  have hfirst := w.walkable.leftmostAt_eq (Nat.zero_le _) hrow
  have hiff := w.sentinel_iff
  by_cases hmin : (x.tree.store.node x.tree.root).firstKey = minKey
  · obtain ⟨items, hleaves⟩ := w.leaves_eq_leafCells hmin
    have ha := answersAs_of_leaves w hleaves hmin
    refine ⟨_, _, _, items, hroot, hfirst, hleaf, ha.items_eq, hiff,
      fun key => w.exists_search_iff, fun keys => exists_predecessor_iff w,
      fun keys => exists_get_iff w, fun _ => ⟨ha, fun keys => ?_⟩,
      fun hno => absurd (hiff.mpr hmin) hno⟩
    exact ha.predecessor_below
  · obtain ⟨items, hleaves, hkeys, hne⟩ := w.leaves_eq_map_cell hmin
    obtain ⟨hitems, hlength⟩ :=
      items_and_length_of_map_cell w hleaves hkeys hne
    exact ⟨_, _, _, items, hroot, hfirst, hleaf, hitems, hiff,
      fun key => w.exists_search_iff, fun keys => exists_predecessor_iff w,
      fun keys => exists_get_iff w, fun hs => absurd (hiff.mp hs) hmin,
      fun _ => hlength⟩

/-- A tree like the sparse one, with the sentinel in front. -/
def guarded : Index where
  config := sparse.config
  tree :=
    { store :=
        { capacity := 8
          nodes :=
            #[{ height := 0, parent := .slot 2, right := .slot 1
                cells := [sentinelCell, ⟨5, .value 50⟩] },
              { height := 0, parent := .slot 2, right := .null
                cells := [⟨7, .value 70⟩] },
              { height := 1, parent := .null, right := .null
                cells := [⟨minKey, .child (.slot 0)⟩, ⟨7, .child (.slot 1)⟩] }]
          size_le := by decide }
      root := .slot 2 }
  valid := sparse.valid

/-- One tree with the sentinel, and one without it. -/
theorem accepted_answers_all_iff_sentinel_guarded :
    guarded.check = .ok (.ok ()) ∧ sparse.check = .ok (.ok ()) ∧
      (∃ items, guarded.AnswersAs ⟨items⟩) ∧
      ∃ items n, sparse.items = .ok items ∧ sparse.length = .ok n ∧
        n + 1 = items.length := by
  have hguarded : guarded.check = .ok (.ok ()) := by decide +kernel
  refine ⟨hguarded, check_sparse, ?_, ?_⟩
  · obtain ⟨root, first, leaf, items, hroot, -, -, -, hiff, -, -, -, hall, -⟩ :=
      accepted_answers_all_iff_sentinel hguarded
    have hget : guarded.tree.store.get? guarded.tree.root =
        some (guarded.tree.store.node (.slot 2)) := rfl
    obtain rfl := Option.some.inj (hget.symm.trans hroot)
    exact ⟨items, (hall (hiff.mpr rfl)).1⟩
  · obtain ⟨root, first, leaf, items, hroot, -, -, hitems, hiff, -, -, -, -,
      hshort⟩ := accepted_answers_all_iff_sentinel check_sparse
    have hget : sparse.tree.store.get? sparse.tree.root =
        some (sparse.tree.store.node (.slot 2)) := rfl
    obtain rfl := Option.some.inj (hget.symm.trans hroot)
    obtain ⟨n, hn, hlen⟩ := hshort (hiff.not.mpr (by decide))
    exact ⟨items, n, hitems, hn, hlen⟩

/-- The sparse tree is accepted, its leaves start with a pair, a search below
this pair fails at the root, and of its two pairs one is counted. -/
theorem accepted_without_sentinel :
    sparse.check = .ok (.ok ()) ∧ sparse.tree.leftmostAt 0 = .ok (.slot 0) ∧
      (sparse.tree.store.node (.slot 0)).cells.head? = some ⟨5, .value 50⟩ ∧
      sparse.tree.search 3 = .error
        (.noPredecessor 3 (.slot 2) (sparse.tree.store.node (.slot 2))) ∧
      sparse.predecessor [3] = .error
        (.noPredecessor 3 (.slot 2) (sparse.tree.store.node (.slot 2))) ∧
      sparse.get [3] = .error
        (.noPredecessor 3 (.slot 2) (sparse.tree.store.node (.slot 2))) ∧
      sparse.items = .ok [⟨5, 50⟩, ⟨9, 90⟩] ∧ sparse.length = .ok 1 := by
  decide +kernel

end Index

end LevelIndex
