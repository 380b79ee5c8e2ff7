import LevelIndex.Proofs.Walk
import LevelIndex.Tree.Check

/-!
# The nodes of a tree

The nodes that belong to a tree are its root and the children of its nodes
(`Tree.Has`). In a well-formed tree these are the nodes of its rows
(`WellFormed.has_iff`), so what holds of the levels holds of every node. Nodes
of the store that fell out of the tree are none of them.

With this the listings of a tree are read off its levels: no node is out of
bounds but the last of a level and the root (`occupancyViolations_eq`), and the
only empty entry of a leaf is the sentinel's (`eq_first_of_null`), every other
cell of the leaves lying above it.
-/

namespace LevelIndex

namespace Tree

/-- The nodes of a tree: its root, and the children of its nodes. -/
inductive Has (t : Tree) : Handle → Prop
  | root : t.Has t.root
  | child {h c : Handle} {n : Node} : t.Has h → t.store.get? h = some n →
    c ∈ n.children → t.Has c

variable {t : Tree} {row : Nat → List Handle} {height : Nat} {items : List Pair}

/-- The nodes of a well-formed tree are those of its rows. Upwards by induction
on how a node is reached, where the leaves lead no further as they have no
children; downwards from the root, level by level. -/
theorem WellFormed.has_iff (w : t.WellFormed row height) {h : Handle} :
    t.Has h ↔ ∃ k ≤ height, h ∈ row k := by
  constructor
  · intro hh
    induction hh with
    | root => exact ⟨height, Nat.le_refl _, w.root_mem⟩
    | @child p c n _ hn hc ih =>
        obtain ⟨k, hk, hp⟩ := ih
        obtain rfl := Option.some.inj (hn.symm.trans ((w.isRow hk).get?_eq hp))
        cases k with
        | zero =>
            obtain ⟨d, hd, hdc⟩ := List.mem_filterMap.mp hc
            rcases w.leaf p hp d hd with ⟨v, hv, -⟩ | rfl
            · rw [hv] at hdc
              cases hdc
            · cases hdc
        | succ k => exact ⟨k, Nat.le_of_succ_le hk, (w.spans hk).mem_lower hp hc⟩
  · rintro ⟨k, hk, hh⟩
    induction hk using Nat.decreasingInduction generalizing h with
    | self =>
        rw [w.top] at hh
        exact List.mem_singleton.mp hh ▸ .root
    | of_succ k hlt ih =>
        rw [w.children k hlt] at hh
        obtain ⟨p, hp, hc⟩ := List.mem_flatMap.mp hh
        exact .child (ih hp) ((w.isRow hlt).get?_eq hp) hc

namespace Intact

theorem get?_eq (i : t.Intact row height items) {k : Nat} (hk : k ≤ height)
    {h : Handle} (hh : h ∈ row k) : t.store.get? h = some (t.store.node h) :=
  (i.isRow hk).get?_eq hh

theorem has_iff (i : t.Intact row height items) {h : Handle} :
    t.Has h ↔ ∃ k ≤ height, h ∈ row k :=
  i.wellFormed.has_iff

theorem occupancyViolations_eq (i : t.Intact row height items) :
    t.occupancyViolations = .ok [] := by
  have hnone : ∀ k ≤ height, t.occupancyViolationsAt k = .ok [] := by
    intro k hk
    rw [occupancyViolationsAt, i.levelNodes_eq hk, ok_bind]
    show Except.ok (List.map _ (List.filter _ _)) = _
    rw [List.filter_eq_nil_iff.mpr, List.map_nil]
    intro q hq
    rw [← List.map_dropLast] at hq
    obtain ⟨h, hh, rfl⟩ := List.mem_map.mp hq
    simp [(i.level k hk).half h hh, Node.size_le]
  rw [occupancyViolations, i.height_eq, ok_bind, overHeights_eq_ok (g := fun _ => [])
    (height + 1) 0 fun k hk => hnone k (by omega), ok_bind]
  simp
  rfl

theorem eq_first_of_null (i : t.Intact row height items) {p : Handle}
    {rest : List Handle} (hrow : row 0 = p :: rest) {h : Handle}
    (hh : h ∈ row 0) {slot : Nat} {c : Cell}
    (hc : (t.store.node h).cells[slot]? = some c) (hnull : c.entry = .null) :
    h = p ∧ slot = 0 := by
  have hl := i.level 0 (Nat.zero_le _)
  have hi := hl.increasing
  obtain ⟨d, cells, hcells, -⟩ :=
    Node.exists_cons (hl.nonempty p (by simp [hrow]))
  have hfirst : d = sentinelCell ∧
      t.store.contents (row 0) = leafCells items := by
    have h := i.leaves
    rw [hrow, Store.contents_cons, hcells] at h
    exact ⟨(List.cons.inj h).1, i.leaves⟩
  have hmem : c ∈ leafCells items :=
    hfirst.2 ▸ Store.mem_contents.mpr ⟨h, hh, List.mem_of_getElem? hc⟩
  have hkey : c.key = minKey := by
    rcases List.mem_cons.mp hmem with rfl | hmem
    · rfl
    · obtain ⟨q, -, rfl⟩ := List.mem_map.mp hmem
      cases hnull
  have habove : ∀ e ∈ cells ++ t.store.contents rest, minKey < e.key := by
    rw [hrow, Store.contents_cons, hcells, hfirst.1] at hi
    exact fun e he => List.rel_of_pairwise_cons hi he
  rw [hrow] at hh
  rcases List.mem_cons.mp hh with rfl | hh
  · refine ⟨rfl, ?_⟩
    rw [hcells] at hc
    cases slot with
    | zero => rfl
    | succ slot =>
        have hc' : c ∈ cells := List.mem_of_getElem? (by simpa using hc)
        exact absurd (hkey ▸ habove c (List.mem_append_left _ hc'))
          Int64.lt_irrefl
  · have hc' := Store.mem_contents.mpr ⟨h, hh, List.mem_of_getElem? hc⟩
    exact absurd (hkey ▸ habove c (List.mem_append_right _ hc')) Int64.lt_irrefl

end Intact

end Tree

end LevelIndex
