import LevelIndex.Index
import LevelIndex.Proofs.Blocks
import LevelIndex.Proofs.Check
import LevelIndex.Proofs.Nodes
import LevelIndex.Proofs.Search

/-!
# What acceptance by the checker means

The checker can be run on any index, however its tree has come about: on one
that a history led to, and on one whose store and root were written to at will.
It accepts just the well-formed trees (`check_iff_wellFormed`), so an accepted
tree can be walked, level by level and along its leaves.

What such a tree answers is compared with a plain walk over the cells of its
leaves:

- the search for a key ends in the one leaf whose range holds the key, and what
  it finds there is the floor of the key among all cells of the leaves
  (`Tree.WellFormed.search_leaf`);
- so a predecessor is the last pair not above the key (`exists_predecessor`),
  and a value is the first that a cell has under the key (`get_eq_findSome?`).

Nothing here asks for the sentinel. A tree without one has no floor for a key
below the first key of its root, so such keys are left out
(`accepted_answers_like_scan`).
-/

namespace LevelIndex

/-! ## A walk over cells -/

section Scan

variable {key : Key} {cells : List Cell} {c : Cell}

theorem getLast?_filter_pairs {pairOf : Cell → Pair}
    (hkey : ∀ c ∈ cells, (pairOf c).key = c.key) :
    ((cells.map pairOf).filter fun p => p.key ≤ key).getLast? =
      (floor key cells).map pairOf := by
  rw [floor, List.filter_map, List.getLast?_map]
  refine congrArg (Option.map pairOf ∘ List.getLast?) ?_
  exact List.filter_congr fun c hc => by simp [hkey c hc]

theorem valueAt?_eq_none (h : c.key ≠ key) : c.valueAt? key = none := by
  rcases c with ⟨k, _ | v | q⟩
  · rfl
  · exact if_neg h
  · rfl

theorem findSome?_valueAt? (hi : Increasing cells)
    (hf : floor key cells = some c) :
    cells.findSome? (·.valueAt? key) = c.valueAt? key := by
  obtain ⟨l, m, rfl, hle, hm⟩ := split_of_floor hi hf
  have hl : l.findSome? (·.valueAt? key) = none := by
    refine List.findSome?_eq_none_iff.mpr fun d hd => valueAt?_eq_none ?_
    have hlt := (List.pairwise_append.mp hi).2.2 d hd c (by simp)
    exact Int64.ne_of_lt (Int64.lt_of_lt_of_le hlt hle)
  have hm : m.findSome? (·.valueAt? key) = none :=
    List.findSome?_eq_none_iff.mpr fun d hd =>
      valueAt?_eq_none (Int64.ne_of_lt (hm d hd)).symm
  rw [List.findSome?_append, hl, Option.none_or, List.findSome?_cons, hm]
  cases c.valueAt? key <;> rfl

end Scan

theorem Tree.WellFormed.search_leaf {t : Tree} {row : Nat → List Handle}
    {height : Nat} (w : t.WellFormed row height) {key : Key}
    (hkey : (t.store.node t.root).firstKey ≤ key) :
    ∃ leaf c, t.search key = .ok ⟨leaf, c⟩ ∧ leaf ∈ row 0 ∧
      c ∈ (t.store.node leaf).cells ∧
      floor key (t.store.contents (row 0)) = some c ∧
      ∀ h ∈ row 0, h = leaf ↔ (t.store.node h).firstKey ≤ key ∧
        ∀ n, t.store.get? (t.store.node h).right = some n →
          key < n.firstKey := by
  have hr := w.isRow (Nat.zero_le height)
  obtain ⟨leaf, c, hsearch, -, hfloor, first, hrange⟩ := w.search_eq hkey
  obtain ⟨p, hp, hcell, hlinks⟩ :=
    Store.floor_links hr.increasing hr.nonempty hfloor
  obtain ⟨-, rfl⟩ : (t.store.node p).firstKey = first ∧ p = leaf := by
    simpa using hlinks.symm.trans hrange
  refine ⟨p, c, hsearch, hp, (mem_of_floor hcell).1, hfloor, fun h hh => ?_⟩
  rw [← hr.floor_links_iff hh, hlinks]
  refine ⟨fun heq => by rw [heq], fun heq => ?_⟩
  simp only [Option.some.injEq, Cell.mk.injEq, Entry.child.injEq] at heq
  exact heq.2.symm

namespace Index

theorem check_eq_ok_iff {x : Index} :
    x.check = .ok (.ok ()) ↔ x.tree.check = .ok () := by
  rw [check]
  split
  · next h => simp [h]
  · next h => simp [h]
  · next h => simp [h]

/-- **Acceptance.** The checker accepts an index just in case the nodes reached
from the root make up a well-formed tree, of a height that fits a word; then
each level is listed in full, each of its nodes once, and what is stored is
listed in key order. -/
theorem check_iff_wellFormed (x : Index) :
    (x.check = .ok (.ok ()) ↔ ∃ row height, height ≤ heightLimit ∧
      (∀ h, x.tree.Has h ↔ h ∈ Tree.nodesUpTo row height) ∧
      x.tree.WellFormed row height) ∧
    (x.check = .ok (.ok ()) → ∃ height, x.tree.height = .ok height ∧
      (∀ k ≤ height, ∃ level, x.tree.level k = .ok level ∧ level.Nodup ∧
        ∀ h, h ∈ level ↔ x.tree.Has h ∧
          ∃ n, x.tree.store.get? h = some n ∧ n.height = k) ∧
      ∃ items, x.items = .ok items ∧ Ascending (items.map (·.key))) := by
  rw [check_eq_ok_iff, Tree.check_eq_ok_iff]
  refine ⟨⟨?_, ?_⟩, ?_⟩
  · rintro ⟨row, height, hlim, w⟩
    exact ⟨row, height, hlim, fun h => by rw [w.has_iff, Tree.mem_nodesUpTo], w⟩
  · rintro ⟨row, height, hlim, -, w⟩
    exact ⟨row, height, hlim, w⟩
  · rintro ⟨row, height, -, w⟩
    refine ⟨height, w.walkable.height_eq, fun k hk => ?_, w.exists_items⟩
    refine ⟨row k, w.walkable.level_eq hk, (w.isRow hk).nodup, fun h => ?_⟩
    rw [w.has_iff]
    constructor
    · intro hh
      exact ⟨⟨k, hk, hh⟩, _, (w.isRow hk).get?_eq hh, w.height_eq k hk h hh⟩
    · rintro ⟨⟨j, hj, hh⟩, n, hn, hnk⟩
      obtain rfl := Option.some.inj (hn.symm.trans ((w.isRow hj).get?_eq hh))
      obtain rfl : j = k := (w.height_eq j hj h hh).symm.trans hnk
      exact hh

/-- Two leaves of one pair each under a root, without a sentinel. No history
leads here. -/
def sparse : Index where
  config := { storeCapacity := 8 }
  tree :=
    { store :=
        { capacity := 8
          nodes :=
            #[{ height := 0, parent := .slot 2, right := .slot 1
                cells := [⟨5, .value 50⟩] },
              { height := 0, parent := .slot 2, right := .null
                cells := [⟨9, .value 90⟩] },
              { height := 1, parent := .null, right := .null
                cells := [⟨5, .child (.slot 0)⟩, ⟨9, .child (.slot 1)⟩] }]
          size_le := by decide }
      root := .slot 2 }
  valid := ⟨by decide, by decide, by decide, by decide⟩

theorem check_sparse : sparse.check = .ok (.ok ()) := by decide +kernel

theorem check_iff_wellFormed_sparse :
    (∃ row height, sparse.tree.WellFormed row height) ∧
      ∃ items, sparse.items = .ok items ∧ Ascending (items.map (·.key)) := by
  obtain ⟨hiff, hlists⟩ := check_iff_wellFormed sparse
  obtain ⟨row, height, -, -, w⟩ := hiff.mp check_sparse
  obtain ⟨-, -, -, hitems⟩ := hlists check_sparse
  exact ⟨⟨row, height, w⟩, hitems⟩

section Answers

variable {x : Index} {row : Nat → List Handle} {height : Nat}
  (w : x.tree.WellFormed row height) {keys : List Key}
  (hkeys : ∀ key ∈ keys, (x.tree.store.node x.tree.root).firstKey ≤ key)
include w hkeys

theorem exists_predecessor {pairOf : Cell → Pair}
    (hpair : ∀ c ∈ x.tree.store.contents (row 0), c.pair = .ok (pairOf c)) :
    ∃ answers, x.predecessor keys = .ok answers ∧
      answers.map some = keys.map fun key =>
        (((x.tree.store.contents (row 0)).map pairOf).filter
          fun p => p.key ≤ key).getLast? := by
  let cells := x.tree.store.contents (row 0)
  have hkey : ∀ c ∈ cells, (pairOf c).key = c.key :=
    fun c hc => Cell.pair_eq_ok_key (hpair c hc)
  refine ⟨keys.map fun key => pairOf ((floor key cells).getD sentinelCell),
    ?_, ?_⟩
  · rw [predecessor, mapBlocks_eq_mapM]
    refine mapM_eq_ok fun key hmem => ?_
    obtain ⟨leaf, c, hsearch, -, hfloor, -⟩ := w.search_eq (hkeys key hmem)
    rw [hsearch, hfloor]
    exact hpair c (mem_of_floor hfloor).1
  · rw [List.map_map]
    refine List.map_congr_left fun key hmem => ?_
    obtain ⟨leaf, c, -, -, hfloor, -⟩ := w.search_eq (hkeys key hmem)
    rw [getLast?_filter_pairs hkey, Function.comp_apply, hfloor]
    rfl

theorem get_eq_findSome? :
    x.get keys = .ok (keys.map fun key =>
      (x.tree.store.contents (row 0)).findSome? (·.valueAt? key)) := by
  have hi := (w.isRow (Nat.zero_le height)).increasing
  rw [get, mapBlocks_eq_mapM]
  refine mapM_eq_ok fun key hmem => ?_
  obtain ⟨leaf, c, hsearch, -, hfloor, -⟩ := w.search_eq (hkeys key hmem)
  rw [hsearch, findSome?_valueAt? hi hfloor]
  rfl

end Answers

/-- **Descent.** On every index that the checker accepts, the search for a key
that is not below the root's first key ends in the one leaf whose range holds
the key, with the greatest cell of all leaves that is not above it. So for keys
of that kind the answers are those of a walk over the leaves, in order. -/
theorem accepted_answers_like_scan {x : Index} (hc : x.check = .ok (.ok ())) :
    ∃ root leaves cells pairs, x.tree.store.get? x.tree.root = some root ∧
      x.tree.levelNodes 0 = .ok leaves ∧
      cells = leaves.flatMap (fun q => q.2.cells) ∧
      cells.mapM Cell.pair = .ok pairs ∧
      (∀ key, root.firstKey ≤ key → ∃ leaf cell,
        x.tree.search key = .ok ⟨leaf, cell⟩ ∧
        (∃ n, (leaf, n) ∈ leaves ∧ cell ∈ n.cells) ∧
        (∀ q ∈ leaves, q.1 = leaf ↔ q.2.firstKey ≤ key ∧
          ∀ n, x.tree.store.get? q.2.right = some n → key < n.firstKey) ∧
        cell.key ≤ key ∧ ∀ c ∈ cells, c.key ≤ key → c = cell ∨ c.key < cell.key) ∧
      ∀ keys : List Key, (∀ key ∈ keys, root.firstKey ≤ key) →
        (∃ answers, x.predecessor keys = .ok answers ∧
          answers.map some = keys.map fun key =>
            (pairs.filter fun p => p.key ≤ key).getLast?) ∧
        x.get keys = .ok (keys.map fun key =>
          cells.findSome? (·.valueAt? key)) := by
  obtain ⟨row, height, -, w⟩ := Tree.check_eq_ok_iff.mp (check_eq_ok_iff.mp hc)
  have hr := w.isRow (Nat.zero_le height)
  obtain ⟨pairOf, hpair⟩ := w.exists_pairOf
  refine ⟨_, _, x.tree.store.contents (row 0),
    (x.tree.store.contents (row 0)).map pairOf,
    (w.isRow (Nat.le_refl _)).get?_eq w.root_mem,
    w.walkable.levelNodes_eq (Nat.zero_le _), (Store.flatMap_cells _ _).symm,
    mapM_eq_ok hpair, ?_, ?_⟩
  · intro key hle
    obtain ⟨leaf, c, hsearch, hleaf, hcell, hfloor, hrange⟩ := w.search_leaf hle
    refine ⟨leaf, c, hsearch, ⟨_, List.mem_map_of_mem hleaf, hcell⟩,
      fun q hq => ?_, (mem_of_floor hfloor).2, fun d hd hdk => ?_⟩
    · obtain ⟨h, hh, rfl⟩ := List.mem_map.mp hq
      exact hrange h hh
    · rcases Int64.lt_or_eq_of_le (key_le_of_floor hr.increasing hfloor hd hdk)
        with hlt | heq
      · exact Or.inr hlt
      · exact Or.inl (hr.increasing.eq_of_key_eq hd (mem_of_floor hfloor).1 heq)
  · intro keys hle
    exact ⟨exists_predecessor w hle hpair, get_eq_findSome? w hle⟩

/-- A key between the leaves of the sparse tree belongs to the left one. -/
theorem accepted_answers_like_scan_sparse :
    sparse.check = .ok (.ok ()) ∧
      ∃ leaf cell, sparse.tree.search 7 = .ok ⟨leaf, cell⟩ ∧ cell.key ≤ 7 ∧
        ∃ answers, sparse.predecessor [20, 7] = .ok answers ∧
          answers.length = 2 := by
  obtain ⟨root, leaves, cells, pairs, hroot, -, -, -, hsearch, hanswers⟩ :=
    accepted_answers_like_scan check_sparse
  have hfirst : sparse.tree.store.get? sparse.tree.root =
      some (sparse.tree.store.node (.slot 2)) := rfl
  obtain rfl := Option.some.inj (hfirst.symm.trans hroot)
  obtain ⟨leaf, cell, hs, -, -, hle, -⟩ := hsearch 7 (by decide)
  have hkeys : ∀ key ∈ [(20 : Key), 7],
      (sparse.tree.store.node (.slot 2)).firstKey ≤ key :=
    List.forall_mem_cons.mpr
      ⟨by decide, List.forall_mem_singleton.mpr (by decide)⟩
  obtain ⟨⟨answers, hp, hscan⟩, -⟩ := hanswers [20, 7] hkeys
  refine ⟨check_sparse, leaf, cell, hs, hle, answers, hp, ?_⟩
  have hlen := congrArg List.length hscan
  rwa [List.length_map, List.length_map] at hlen

end Index

end LevelIndex
