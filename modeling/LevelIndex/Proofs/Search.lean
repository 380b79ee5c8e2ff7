import LevelIndex.Proofs.Walk
import LevelIndex.Tree.Search

/-!
# Searching a well-formed tree

At each node a search takes the floor of its key among the node's cells. On a
row of a well-formed tree that is the floor among all cells of the row, since
the node is the one whose key range holds the key; and the cells of a row are
the links of the row below, so the child found there is again the node with the
key in its range. A key may fall between the last key under one node and the
first one under the next, and is led to the former on every row.

Hence the search for a key that is not below all of them ends in the leaf of the
key, with the floor of the key among all that the leaves hold
(`WellFormed.search_eq`). For a key below all of them it fails at the root
(`WellFormed.search_below`), so the keys that can be searched for are those from
the root's first on (`WellFormed.exists_search_iff`). In an intact tree these
are all keys, since the root starts with the key of the sentinel
(`Intact.search_eq`).
-/

namespace LevelIndex

namespace Node

variable {n : Node} {key : Key}

theorem predecessorSlot?_of_floor (hi : Increasing n.cells) {c : Cell}
    (hf : floor key n.cells = some c) :
    ∃ slot, n.predecessorSlot? key = some slot ∧ n.cells.get slot = c := by
  obtain ⟨l, m, hcells, hle, hgt⟩ := split_of_floor hi hf
  have hle' : ∀ d ∈ l ++ [c], d.key ≤ key := by
    rw [hcells] at hi
    rw [List.forall_mem_append]
    refine ⟨fun d hd => ?_, List.forall_mem_singleton.mpr hle⟩
    have hdc := (List.pairwise_append.mp hi).2.2 d hd c (by simp)
    exact Int64.le_trans (Int64.le_of_lt hdc) hle
  have hcount : leadingCount (fun c : Cell => c.key ≤ key) n.cells =
      l.length + 1 := by
    rw [hcells, List.append_cons, leadingCount_append
      (fun d hd => by simpa using hle' d hd)
      (fun d hd => by simpa using hgt d hd), List.length_append]
    rfl
  have hlt : l.length < n.cells.length := by simp [hcells]
  refine ⟨⟨l.length, hlt⟩, ?_, by simp [hcells]⟩
  unfold predecessorSlot?
  split
  · next h0 => omega
  · next slot hs =>
      have : slot = l.length := by omega
      subst this
      rfl

theorem predecessorSlot?_eq_none (h : ∀ c ∈ n.cells, key < c.key) :
    n.predecessorSlot? key = none := by
  have hcount : leadingCount (fun c : Cell => c.key ≤ key) n.cells = 0 :=
    leadingCount_append (l := []) (by simp) fun c hc => by simpa using h c hc
  unfold predecessorSlot?
  split
  · rfl
  · next slot hs => omega

end Node

namespace Tree

variable {t : Tree} {row : Nat → List Handle} {height : Nat} {items : List Pair}

theorem descend_succ {key : Key} {h : Handle} {n : Node}
    (hr : t.store.read h = .ok n) {slot : Fin n.cells.length}
    (hs : n.predecessorSlot? key = some slot) (steps : Nat) :
    t.descend key (steps + 1) h =
      if n.isLeaf then .ok ⟨h, n.cells.get slot⟩
      else match (n.cells.get slot).entry with
        | .child child => t.descend key steps child
        | _ => .error (.noChildInSlot h slot n) := by
  by_cases hleaf : n.isLeaf = true
  · rw [if_pos hleaf, descend, hr, ok_bind, hs]
    exact if_pos hleaf
  · rw [if_neg hleaf, descend, hr, ok_bind, hs]
    refine (if_neg hleaf).trans ?_
    cases (n.cells.get slot).entry <;> rfl

namespace WellFormed

/-- A descent that stands on the node whose range holds the key ends on the leaf
whose range does. By induction on the height of the node: the floor of the key
in the node is the link of the child with the key in its range. -/
theorem descend_eq (w : t.WellFormed row height) {key : Key} :
    ∀ {k steps : Nat} {p : Handle} {sep : Key}, k ≤ height → k < steps →
      floor key (t.store.links (row k)) = some ⟨sep, .child p⟩ →
      ∃ leaf c, t.descend key steps p = .ok ⟨leaf, c⟩ ∧ leaf ∈ row 0 ∧
        floor key (t.store.contents (row 0)) = some c ∧
        ∃ first, floor key (t.store.links (row 0)) = some ⟨first, .child leaf⟩
  | k, 0, _, _, _, hs, _ => absurd hs (Nat.not_lt_zero k)
  | k, steps + 1, p, sep, hk, hs, hp => by
      have hr := w.isRow hk
      obtain ⟨d, hd⟩ := hr.exists_floor hp
      obtain ⟨q, hq, hcells, hlinks⟩ :=
        Store.floor_links hr.increasing hr.nonempty hd
      obtain rfl : q = p := by
        have h := hlinks.symm.trans hp
        simp only [Option.some.injEq, Cell.mk.injEq, Entry.child.injEq] at h
        exact h.2
      obtain ⟨slot, hslot, hcell⟩ :=
        Node.predecessorSlot?_of_floor (hr.increasing_cells hq) hcells
      have hheight := hr.height_eq q hq
      rw [descend_succ (hr.read hq) hslot, hcell]
      cases k with
      | zero =>
          refine ⟨q, d, ?_, hq, hd, _, hlinks⟩
          rw [if_pos (by simp [Node.isLeaf, hheight])]
      | succ k =>
          have hchild := hd
          rw [(w.spans hk).contents_eq] at hchild
          obtain ⟨r, -, hr⟩ := Store.mem_links.mp (mem_of_floor hchild).1
          obtain ⟨leaf, c, hrec⟩ := descend_eq w (Nat.le_of_succ_le hk)
            (Nat.lt_of_succ_lt_succ hs) (hr ▸ hchild)
          refine ⟨leaf, c, ?_⟩
          rw [if_neg (by simp [Node.isLeaf, hheight]), ← hr]
          exact hrec

/-- **Searching.** The search for a key that is not below the root's first key
answers with the floor of the key among all that the leaves hold, and ends in
the leaf whose range holds the key. -/
theorem search_eq (w : t.WellFormed row height) {key : Key}
    (hkey : (t.store.node t.root).firstKey ≤ key) :
    ∃ leaf c, t.search key = .ok ⟨leaf, c⟩ ∧ leaf ∈ row 0 ∧
      floor key (t.store.contents (row 0)) = some c ∧
      ∃ first, floor key (t.store.links (row 0)) =
        some ⟨first, .child leaf⟩ := by
  have hroot : floor key (t.store.links (row height)) =
      some ⟨(t.store.node t.root).firstKey, .child t.root⟩ := by
    rw [w.top]
    exact (floor_singleton key _).trans (if_pos hkey)
  exact w.descend_eq (Nat.le_refl _) (Nat.lt_succ_of_lt w.height_lt) hroot

theorem search_below (w : t.WellFormed row height) {key : Key}
    (hkey : key < (t.store.node t.root).firstKey) :
    t.search key =
      .error (.noPredecessor key t.root (t.store.node t.root)) := by
  have hr := w.isRow (Nat.le_refl height)
  have hslot : (t.store.node t.root).predecessorSlot? key = none :=
    Node.predecessorSlot?_eq_none fun c hc => Int64.lt_of_lt_of_le hkey
      (Node.firstKey_le (hr.increasing_cells w.root_mem) hc)
  rw [search, descend, hr.read w.root_mem, ok_bind, hslot]

theorem exists_search_iff (w : t.WellFormed row height) {key : Key} :
    (∃ hit, t.search key = .ok hit) ↔
      (t.store.node t.root).firstKey ≤ key := by
  constructor
  · rintro ⟨hit, h⟩
    refine Int64.not_lt.mp fun hlt => ?_
    rw [w.search_below hlt] at h
    cases h
  · intro hle
    obtain ⟨leaf, c, h, -⟩ := w.search_eq hle
    exact ⟨_, h⟩

end WellFormed

namespace Intact

theorem firstKey_root (i : t.Intact row height items) :
    (t.store.node t.root).firstKey = minKey := by
  obtain ⟨h, rest, hrow, hfirst⟩ :=
    (i.level height (Nat.le_refl _)).exists_cons
  rw [i.top] at hrow
  obtain ⟨rfl, -⟩ := List.cons.inj hrow
  exact hfirst

theorem search_eq (i : t.Intact row height items) (key : Key) :
    ∃ leaf c, t.search key = .ok ⟨leaf, c⟩ ∧ leaf ∈ row 0 ∧
      floor key (leafCells items) = some c ∧
      ∃ first, floor key (t.store.links (row 0)) =
        some ⟨first, .child leaf⟩ := by
  rw [← i.leaves]
  exact i.wellFormed.search_eq (i.firstKey_root ▸ minKey_le key)

end Intact

end Tree

end LevelIndex
