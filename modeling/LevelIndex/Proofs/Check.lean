import LevelIndex.Proofs.WellFormed
import LevelIndex.Proofs.Yields
import LevelIndex.Tree.Check

/-!
# What the checker passes

The checker goes down from the root, one node at a time, and hands each node the
separator that bounds it from above. Seen from a whole level that separator is
the first key of the node's right neighbour, under whatever parent, or there is
none (`separatorOf`); this holds because the cells of a level are the links of
the level below. So what the descent asks of its nodes can be asked of one level
after the other: a level is `Ordered`, and its nodes hold the links of children
of theirs (`Kids`). `Passes` puts these together, and the descent passes a node
just in case the levels under it do (`subtree_eq_ok_iff`).

The descent meets the nodes of each level from left to right (`filter_under`),
which is what the chains are compared with. Nothing is remembered of the nodes
met before, and none of the checks looks for a node that comes twice; still,
what the checker passes is just the well-formed trees (`Tree.check_eq_ok_iff`).
A node that came twice on a level would start at its first key twice, and keys
increase along the whole of a level.

The module goes from the check of a single node over rows of nodes to the
descent, and puts the tree together at the end:

- for each check of a single node, when it goes through;
- `passes_iff`: what is asked of the nodes under a row is asked of rows;
- `subtree_eq_ok_iff`, by induction on the height, with `innerCells_eq_ok_iff`
  for the cells of one node;
- `wellFormed_of_check` and `WellFormed.check_eq_ok`, the two halves of the
  equivalence.
-/

namespace LevelIndex

namespace Check

variable {s : Store}

/-! ## Single nodes -/

section Pieces

variable {h : Handle} {n : Node}

theorem load_eq_ok_iff :
    load s h = .ok n ↔ s.contains h = true ∧ n = s.node h := by
  rw [load]
  cases hg : s.get? h with
  | none =>
      have hc : ¬s.contains h = true := fun hc => by
        obtain ⟨m, hm⟩ := Store.contains_iff.mp hc
        rw [hg] at hm
        cases hm
      simp [hc]
  | some m =>
      obtain rfl := Store.node_eq_of_get? hg
      simp [Store.contains_iff.mpr ⟨_, hg⟩, eq_comm]

theorem node_eq_ok_iff {upper : Option Key} :
    node h n upper = .ok () ↔ n.cells ≠ [] ∧ Increasing n.cells ∧
      ∀ u ∈ upper, ∀ c ∈ n.cells, c.key < u := by
  by_cases hne : n.cells = []
  · simp [node, Node.lastKey?, Node.keys, hne]
  obtain ⟨front, last, hsplit⟩ : ∃ front last, n.cells = front ++ [last] :=
    ⟨_, _, (List.dropLast_append_getLast hne).symm⟩
  have hkey : n.lastKey? = some last.key := by
    simp [Node.lastKey?, Node.keys, hsplit]
  rw [node, hkey, and_iff_right hne, ← Node.ascending_keys,
    ← Node.unsortedAt?_eq_none_iff]
  cases hs : n.unsortedAt? with
  | some slot => simp
  | none =>
      cases upper with
      | none => simp
      | some u =>
          have hi : Increasing (front ++ [last]) := hsplit ▸
            Node.ascending_keys.mp (Node.unsortedAt?_eq_none_iff.mp hs)
          have hlast : ∀ c ∈ front, c.key < last.key := fun c hc =>
            (List.pairwise_append.mp hi).2.2 c hc last (by simp)
          simp only [require_eq_ok_iff, Option.mem_some_iff, forall_eq', hsplit,
            List.mem_append, List.mem_singleton, true_and]
          refine ⟨fun hlt c hc => ?_, fun hall => hall last (Or.inr rfl)⟩
          rcases hc with hc | rfl
          · exact Int64.lt_trans (hlast c hc) hlt
          · exact hlt

theorem leafCells_eq_ok_iff {slot : Nat} {cells : List Cell} :
    leafCells h slot cells = .ok () ↔ ∀ c ∈ cells, leafCellOk c = true := by
  induction cells generalizing slot with
  | nil => simp [leafCells]
  | cons c cells ih =>
      rw [leafCells, List.forall_mem_cons]
      by_cases hc : leafCellOk c = true
      · rw [if_pos hc, ih, and_iff_right hc]
      · simp [hc]

theorem leafCellOk_iff {c : Cell} : leafCellOk c = true ↔
    (∃ v, c.entry = .value v ∧ c.key ≠ minKey) ∨ c = sentinelCell := by
  rcases c with ⟨key, _ | v | k⟩ <;> simp [leafCellOk, sentinelCell]

theorem child_eq_ok_iff {height slot : Nat} {separator : Key} {c : Handle} :
    child h height slot separator c n = .ok () ↔ n.height ≠ heightLimit ∧
      n.height = height ∧ n.parent = h ∧
        (n.cells = [] ∨ n.firstKey = separator) := by
  simp only [child, unit_bind_eq_ok, require_eq_ok_iff]

theorem chain_eq_ok_iff {height : Nat} {row : List Handle} :
    chain s height row = .ok () ↔
      (∀ k ∈ row, s.contains k = true) ∧ s.Linked .null row := by
  induction row with
  | nil => simp [chain, Store.Linked]
  | cons k row ih =>
      rw [chain, Store.Linked, List.forall_mem_cons, bind_eq_ok]
      cases row with
      | nil =>
          simp only [load_eq_ok_iff, List.head?_nil, Option.getD_none,
            unit_bind_eq_ok, require_eq_ok_iff, ih]
          constructor
          · rintro ⟨n, ⟨hlive, rfl⟩, hright, hrest, hlinked⟩
            exact ⟨⟨hlive, hrest⟩, hright, hlinked⟩
          · rintro ⟨⟨hlive, hrest⟩, hright, hlinked⟩
            exact ⟨_, ⟨hlive, rfl⟩, hright, hrest, hlinked⟩
      | cons next row =>
          simp only [load_eq_ok_iff, List.head?_cons, Option.getD_some,
            unit_bind_eq_ok, require_eq_ok_iff, ih]
          constructor
          · rintro ⟨n, ⟨hlive, rfl⟩, hright, hrest, hlinked⟩
            exact ⟨⟨hlive, hrest⟩, hright, hlinked⟩
          · rintro ⟨⟨hlive, hrest⟩, hright, hlinked⟩
            exact ⟨_, ⟨hlive, rfl⟩, hright, hrest, hlinked⟩

theorem chains_eq_ok_iff {visits : List Visit} {count height : Nat} :
    chains s visits count height = .ok () ↔
      ∀ k, height ≤ k → k < height + count →
        chain s k ((visits.filter (·.height = k)).map (·.handle)) = .ok () := by
  induction count generalizing height with
  | zero => exact iff_of_true rfl fun k h₁ h₂ => by omega
  | succ count ih =>
      rw [chains, unit_bind_eq_ok, ih]
      constructor
      · rintro ⟨hfirst, hrest⟩ k h₁ h₂
        rcases Nat.lt_or_eq_of_le h₁ with h₁ | rfl
        · exact hrest k h₁ (by omega)
        · exact hfirst
      · intro h
        exact ⟨h height (Nat.le_refl _) (by omega),
          fun k h₁ h₂ => h k (by omega) (by omega)⟩

end Pieces

/-! ## Levels

Rows can be cut anywhere. What is asked of a row is asked of the parts, the
left one bounded by the first key of the right one (`ordered_append`,
`passes_append`); so it is the same to ask it of a level as to ask it of the
children of one node after the other. -/

/-- The first key of the first node of a row. -/
def separatorOf (s : Store) (row : List Handle) : Option Key :=
  (s.links row).head?.map (·.key)

theorem separatorOf_append (s : Store) (l m : List Handle) :
    separatorOf s (l ++ m) = (separatorOf s l).or (separatorOf s m) := by
  rw [separatorOf, Store.links_append, List.head?_append]
  cases l <;> rfl

/-- The nodes of a row have cells, the keys increase along it, and all of them
lie below `upper`. -/
structure Ordered (s : Store) (row : List Handle) (upper : Option Key) :
    Prop where
  nonempty : ∀ h ∈ row, (s.node h).cells ≠ []
  increasing : Increasing (s.contents row)
  below : ∀ u ∈ upper, ∀ c ∈ s.contents row, c.key < u

/-- The nodes of a row hold the links of nodes at height `height`, which name
them as their parents. -/
def Kids (s : Store) (height : Nat) (row : List Handle) : Prop :=
  ∀ p ∈ row, (s.node p).cells = s.links (s.node p).children ∧
    ∀ c ∈ (s.node p).children, s.contains c = true ∧
      (s.node c).height ≠ heightLimit ∧ (s.node c).height = height ∧
        (s.node c).parent = p

/-- What the descent asks of a row at the given height, and of the rows under
it. -/
def Passes (s : Store) : Nat → List Handle → Option Key → Prop
  | 0, row, upper =>
    Ordered s row upper ∧ ∀ c ∈ s.contents row, leafCellOk c = true
  | k + 1, row, upper =>
    Ordered s row upper ∧ Kids s k row ∧
      Passes s k (row.flatMap fun p => (s.node p).children) upper

section Rows

variable {l m row : List Handle} {upper : Option Key}

theorem Passes.ordered {k : Nat} (h : Passes s k row upper) :
    Ordered s row upper := by
  cases k with
  | zero => exact h.1
  | succ k => exact h.1

theorem ordered_nil : Ordered s [] upper where
  nonempty _ hh := nomatch hh
  increasing := List.Pairwise.nil
  below _ _ _ hc := nomatch hc

theorem ordered_append : Ordered s (l ++ m) upper ↔
    Ordered s l ((separatorOf s m).or upper) ∧ Ordered s m upper := by
  constructor
  · rintro ⟨hne, hi, hu⟩
    rw [Store.contents_append] at hi hu
    obtain ⟨hil, him, hlm⟩ := List.pairwise_append.mp hi
    refine ⟨⟨fun h hh => hne h (List.mem_append_left _ hh), hil, ?_⟩,
      fun h hh => hne h (List.mem_append_right _ hh), him,
      fun u hu' c hc => hu u hu' c (List.mem_append_right _ hc)⟩
    intro u hu' c hc
    cases m with
    | nil => exact hu u hu' c (List.mem_append_left _ hc)
    | cons q m =>
        obtain rfl : (s.node q).firstKey = u := by
          simpa [separatorOf] using hu'
        obtain ⟨d, hd, hdk⟩ := Node.exists_mem_key_eq_firstKey (hne q (by simp))
        rw [← hdk]
        exact hlm c hc d (Store.mem_contents.mpr ⟨q, by simp, hd⟩)
  · rintro ⟨⟨hnel, hil, hul⟩, hnem, him, hum⟩
    have hcross : ∀ c ∈ s.contents l, ∀ d ∈ s.contents m, c.key < d.key := by
      intro c hc d hd
      cases m with
      | nil => cases hd
      | cons q m =>
          have hsep : (s.node q).firstKey ∈
              (separatorOf s (q :: m)).or upper := by simp [separatorOf]
          refine Int64.lt_of_lt_of_le (hul _ hsep c hc) ?_
          exact Store.firstKey_le_of_mem_contents him (hnem q (by simp)) hd
    refine ⟨fun h hh => ?_, ?_, fun u hu c hc => ?_⟩
    · exact (List.mem_append.mp hh).elim (hnel h) (hnem h)
    · rw [Store.contents_append]
      exact List.pairwise_append.mpr ⟨hil, him, hcross⟩
    · rw [Store.contents_append] at hc
      rcases List.mem_append.mp hc with hcl | hcm
      · cases m with
        | nil => exact hul u hu c hcl
        | cons q m =>
            obtain ⟨d, hd, -⟩ :=
              Node.exists_mem_key_eq_firstKey (hnem q (by simp))
            have hdm := Store.mem_contents.mpr
              ⟨q, (by simp : q ∈ q :: m), hd⟩
            exact Int64.lt_trans (hcross c hcl d hdm) (hum u hu d hdm)
      · exact hum u hu c hcm

theorem ordered_singleton {h : Handle} : Ordered s [h] upper ↔
    node h (s.node h) upper = .ok () := by
  have hcont : s.contents [h] = (s.node h).cells := List.append_nil _
  rw [node_eq_ok_iff]
  constructor
  · rintro ⟨hne, hi, hu⟩
    rw [hcont] at hi hu
    exact ⟨hne h (by simp), hi, hu⟩
  · rintro ⟨hne, hi, hu⟩
    exact ⟨fun k hk => List.mem_singleton.mp hk ▸ hne, hcont.symm ▸ hi,
      hcont.symm ▸ hu⟩

theorem Kids.separatorOf_children {k : Nat} (hk : Kids s k row)
    (hne : ∀ h ∈ row, (s.node h).cells ≠ []) :
    separatorOf s (row.flatMap fun p => (s.node p).children) =
      separatorOf s row := by
  cases row with
  | nil => rfl
  | cons q row =>
      obtain ⟨c, rest, hcons, hfirst⟩ := Node.exists_cons (hne q (by simp))
      rw [List.flatMap_cons, separatorOf_append, separatorOf,
        ← (hk q (by simp)).1, hcons]
      exact congrArg some hfirst.symm

theorem kids_append {k : Nat} :
    Kids s k (l ++ m) ↔ Kids s k l ∧ Kids s k m :=
  List.forall_mem_append

theorem passes_nil {k : Nat} : Passes s k [] upper := by
  induction k with
  | zero => exact ⟨ordered_nil, fun _ hc => nomatch hc⟩
  | succ k ih => exact ⟨ordered_nil, fun _ hp => (nomatch hp), ih⟩

theorem passes_append {k : Nat} : Passes s k (l ++ m) upper ↔
    Passes s k l ((separatorOf s m).or upper) ∧ Passes s k m upper := by
  induction k generalizing l m with
  | zero =>
      rw [Passes, Passes, Passes, ordered_append, Store.contents_append,
        List.forall_mem_append]
      exact and_and_and_comm
  | succ k ih =>
      rw [Passes, Passes, Passes, ordered_append, kids_append,
        List.flatMap_append, ih]
      constructor
      · rintro ⟨⟨hol, hom⟩, ⟨hkl, hkm⟩, hpl, hpm⟩
        rw [hkm.separatorOf_children hom.nonempty] at hpl
        exact ⟨⟨hol, hkl, hpl⟩, hom, hkm, hpm⟩
      · rintro ⟨⟨hol, hkl, hpl⟩, hom, hkm, hpm⟩
        rw [← hkm.separatorOf_children hom.nonempty] at hpl
        exact ⟨⟨hol, hom⟩, ⟨hkl, hkm⟩, hpl, hpm⟩

theorem passes_cons {k : Nat} {h : Handle} : Passes s k (h :: row) upper ↔
    Passes s k [h] ((separatorOf s row).or upper) ∧ Passes s k row upper :=
  passes_append (l := [h])

/-- Rows of which each holds the children of the next pass if each of them does
by itself. A bound from above is handed down to the last node of each row, so it
is one for all of them. -/
theorem passes_iff {rows : Nat → List Handle} {height : Nat}
    (hrows : ∀ k < height,
      rows k = (rows (k + 1)).flatMap fun p => (s.node p).children) :
    Passes s height (rows height) upper ↔
      (∀ k ≤ height, Ordered s (rows k) upper) ∧
      (∀ k < height, Kids s k (rows (k + 1))) ∧
      ∀ c ∈ s.contents (rows 0), leafCellOk c = true := by
  induction height with
  | zero => simp [Passes]
  | succ height ih =>
      have hlast := hrows height (Nat.lt_succ_self _)
      rw [Passes, ← hlast, ih fun k hk => hrows k (Nat.lt_succ_of_lt hk),
        Nat.forall_lt_succ_right]
      constructor
      · rintro ⟨hord, hkids, hords, hkidss, hleaf⟩
        refine ⟨fun k hk => ?_, ⟨hkidss, hkids⟩, hleaf⟩
        rcases Nat.lt_or_eq_of_le hk with hk | rfl
        · exact hords k (Nat.le_of_lt_succ hk)
        · exact hord
      · rintro ⟨hords, ⟨hkidss, hkids⟩, hleaf⟩
        exact ⟨hords _ (Nat.le_refl _), hkids,
          fun k hk => hords k (Nat.le_succ_of_le hk), hkidss, hleaf⟩

end Rows

/-! ## The descent -/

/-- The nodes under `h`, each before those under it. -/
def under (s : Store) : Nat → Handle → List Visit
  | 0, h => [⟨0, h⟩]
  | k + 1, h => ⟨k + 1, h⟩ :: (s.node h).children.flatMap (under s k)

theorem height_le_of_mem_under {k : Nat} {h : Handle} {v : Visit}
    (hv : v ∈ under s k h) : v.height ≤ k := by
  induction k generalizing h with
  | zero =>
      obtain rfl := List.mem_singleton.mp hv
      exact Nat.le_refl _
  | succ k ih =>
      rcases List.mem_cons.mp hv with rfl | hv
      · exact Nat.le_refl _
      · obtain ⟨c, -, hv⟩ := List.mem_flatMap.mp hv
        exact Nat.le_succ_of_le (ih hv)

/-- The cells of a node pass if they are the links of its children, and the
children pass together. The visits are those of the children in turn. -/
theorem innerCells_eq_ok_iff {k : Nat} {h : Handle} {upper : Option Key}
    (ih : ∀ c u vs, subtree s k c (s.node c) u = .ok vs ↔
      vs = under s k c ∧ Passes s k [c] u)
    {cells : List Cell} {slot : Nat} {vs : List Visit} :
    innerCells s (subtree s k) h k upper slot cells = .ok vs ↔
      vs = (childrenOf cells).flatMap (under s k) ∧
      cells = s.links (childrenOf cells) ∧
      (∀ c ∈ childrenOf cells, s.contains c = true ∧
        (s.node c).height ≠ heightLimit ∧ (s.node c).height = k ∧
          (s.node c).parent = h) ∧
      Passes s k (childrenOf cells) upper := by
  induction cells generalizing slot vs with
  | nil =>
      rw [innerCells, Except.ok.injEq]
      exact ⟨fun h => ⟨h.symm, rfl, fun _ hc => (nomatch hc), passes_nil⟩,
        fun h => h.1.symm⟩
  | cons cell cells ihcells =>
      rcases cell with ⟨key, _ | v | c⟩
      · refine iff_of_false (fun hc => by cases hc) fun hc => ?_
        obtain ⟨d, -, hd⟩ := Store.mem_links.mp (hc.2.1 ▸ List.mem_cons_self)
        cases hd
      · refine iff_of_false (fun hc => by cases hc) fun hc => ?_
        obtain ⟨d, -, hd⟩ := Store.mem_links.mp (hc.2.1 ▸ List.mem_cons_self)
        cases hd
      · have hkids : childrenOf (⟨key, .child c⟩ :: cells) =
            c :: childrenOf cells := rfl
        rw [innerCells, hkids, List.flatMap_cons, Store.links_cons,
          List.forall_mem_cons, passes_cons]
        dsimp only
        rw [bind_eq_ok]
        simp only [unit_bind_eq_ok, load_eq_ok_iff, child_eq_ok_iff]
        simp only [bind_eq_ok, ihcells]
        constructor
        · rintro ⟨n, ⟨hlive, rfl⟩, ⟨hlim, hheight, hparent, hkey⟩, vs', hsub,
            vs'', ⟨rfl, hcells, hrest, hpasses⟩, hvs⟩
          obtain ⟨rfl, hpass⟩ := (ih _ _ _).mp hsub
          cases hvs
          have hne := hpass.ordered.nonempty c (by simp)
          have hsep : cells.head?.map (·.key) =
              separatorOf s (childrenOf cells) := by rw [separatorOf, ← hcells]
          rw [hsep] at hpass
          rw [← hcells, ← hkey.resolve_left hne]
          exact ⟨rfl, rfl, ⟨⟨hlive, hlim, hheight, hparent⟩, hrest⟩, hpass,
            hpasses⟩
        · rintro ⟨rfl, hcells, ⟨⟨hlive, hlim, hheight, hparent⟩, hrest⟩, hpass,
            hpasses⟩
          obtain ⟨hcell, hcells⟩ := List.cons.inj hcells
          have hsep : separatorOf s (childrenOf cells) =
              cells.head?.map (·.key) := by rw [separatorOf, ← hcells]
          rw [hsep] at hpass
          exact ⟨_, ⟨hlive, rfl⟩, ⟨hlim, hheight, hparent,
            Or.inr (congrArg Cell.key hcell).symm⟩, _,
            (ih _ _ _).mpr ⟨rfl, hpass⟩, _, ⟨rfl, hcells, hrest, hpasses⟩, rfl⟩

/-- The descent passes a node just in case the levels under it pass, and what it
has visited then are the nodes of these levels. -/
theorem subtree_eq_ok_iff {k : Nat} {h : Handle} {upper : Option Key}
    {vs : List Visit} : subtree s k h (s.node h) upper = .ok vs ↔
      vs = under s k h ∧ Passes s k [h] upper := by
  induction k generalizing h upper vs with
  | zero =>
      have hcont : s.contents [h] = (s.node h).cells := List.append_nil _
      rw [subtree, Passes, under, ordered_singleton, hcont]
      simp only [unit_bind_eq_ok, leafCells_eq_ok_iff]
      constructor
      · rintro ⟨hnode, hleaf, hvs⟩
        cases hvs
        exact ⟨rfl, hnode, hleaf⟩
      · rintro ⟨rfl, hnode, hleaf⟩
        exact ⟨hnode, hleaf, rfl⟩
  | succ k ih =>
      rw [subtree, Passes, under, ordered_singleton, Kids,
        List.forall_mem_singleton, List.flatMap_singleton]
      rw [unit_bind_eq_ok, bind_eq_ok]
      simp only [innerCells_eq_ok_iff fun _ _ _ => ih, ← Node.children_eq]
      constructor
      · rintro ⟨hnode, vs', ⟨rfl, hcells, hkids, hpass⟩, hvs⟩
        cases hvs
        exact ⟨rfl, hnode, ⟨hcells, hkids⟩, hpass⟩
      · rintro ⟨rfl, hnode, ⟨hcells, hkids⟩, hpass⟩
        exact ⟨hnode, _, ⟨rfl, hcells, hkids, hpass⟩, rfl⟩

/-- The descent meets the nodes of each level in their order. -/
theorem filter_under {row : Nat → List Handle} {k j : Nat}
    (hrow : ∀ i < k,
      row i = (row (i + 1)).flatMap fun p => (s.node p).children)
    (hj : j ≤ k) :
    (((row k).flatMap (under s k)).filter (·.height = j)).map (·.handle) =
      row j := by
  induction k with
  | zero =>
      obtain rfl := Nat.le_zero.mp hj
      rw [List.filter_flatMap, List.map_flatMap]
      exact List.flatMap_singleton' _
  | succ k ih =>
      rw [List.filter_flatMap, List.map_flatMap]
      rcases Nat.lt_or_eq_of_le hj with hlt | rfl
      · have hdrop : ∀ h, (under s (k + 1) h).filter (·.height = j) =
            ((s.node h).children.flatMap (under s k)).filter (·.height = j) :=
          fun h => List.filter_cons_of_neg (by simp; omega)
        rw [← ih (fun i hi => hrow i (Nat.lt_succ_of_lt hi))
          (Nat.le_of_lt_succ hlt), hrow k (Nat.lt_succ_self _),
          List.flatMap_assoc, List.filter_flatMap, List.map_flatMap]
        simp only [hdrop]
      · have honly : ∀ h, (under s (k + 1) h).filter (·.height = k + 1) =
            [⟨k + 1, h⟩] := fun h => by
          rw [under, List.filter_cons_of_pos (by simp),
            List.filter_eq_nil_iff.mpr]
          intro v hv
          obtain ⟨c, -, hv⟩ := List.mem_flatMap.mp hv
          have hle := height_le_of_mem_under hv
          simp only [decide_eq_true_eq]
          omega
        simp only [honly]
        exact List.flatMap_singleton' _

end Check

/-! ## Trees -/

/-- The nodes that lie so many levels below a row. -/
def Store.generation (s : Store) (row : List Handle) : Nat → List Handle
  | 0 => row
  | d + 1 => (s.generation row d).flatMap fun p => (s.node p).children

namespace Tree

variable {t : Tree} {row : Nat → List Handle} {height : Nat}

/-- What the checker does: the root is one, the levels pass, and the nodes met
on each level are the level's chain. -/
theorem check_eq_ok_iff_passes :
    t.check = .ok () ↔ t.store.contains t.root = true ∧
      (t.store.node t.root).parent = .null ∧
      Check.Passes t.store (t.store.node t.root).height [t.root] none ∧
      ∀ k ≤ (t.store.node t.root).height, Check.chain t.store k
        (((Check.under t.store (t.store.node t.root).height t.root).filter
          (·.height = k)).map (·.handle)) = .ok () := by
  rw [check, bind_eq_ok]
  simp only [unit_bind_eq_ok, Check.load_eq_ok_iff, require_eq_ok_iff]
  simp only [bind_eq_ok, Check.chains_eq_ok_iff, Nat.zero_le, forall_const,
    Nat.zero_add, Nat.lt_succ_iff]
  constructor
  · rintro ⟨n, ⟨hlive, rfl⟩, hroot, vs, hvs, hchains⟩
    obtain ⟨rfl, hpass⟩ := Check.subtree_eq_ok_iff.mp hvs
    exact ⟨hlive, hroot, hpass, hchains⟩
  · rintro ⟨hlive, hroot, hpass, hchains⟩
    exact ⟨_, ⟨hlive, rfl⟩, hroot, _,
      Check.subtree_eq_ok_iff.mpr ⟨rfl, hpass⟩, hchains⟩

/-- A tree that passes is made of rows that span each other: the generations of
the root, whose heights come down from it one by one. A height above the limit
would put a node of the greatest height below the root, and such a node is
turned down as a child. -/
theorem wellFormed_of_check (h : t.check = .ok ()) :
    ∃ row height, height ≤ heightLimit ∧ t.WellFormed row height := by
  obtain ⟨hlive, hroot, hpass, hchains⟩ := check_eq_ok_iff_passes.mp h
  let height := (t.store.node t.root).height
  let row := fun k => t.store.generation [t.root] (height - k)
  have htop : row height = [t.root] := by
    show t.store.generation _ (height - height) = _
    rw [Nat.sub_self]
    rfl
  have hrow : ∀ k < height,
      row k = (row (k + 1)).flatMap fun p => (t.store.node p).children := by
    intro k hk
    show t.store.generation _ (height - k) = _
    rw [show height - k = (height - (k + 1)) + 1 by omega]
    rfl
  have hpass : Check.Passes t.store height (row height) none :=
    htop.symm ▸ hpass
  obtain ⟨hord, hkids, hleaf⟩ := (Check.passes_iff hrow).mp hpass
  have hchain : ∀ k ≤ height,
      (∀ p ∈ row k, t.store.contains p = true) ∧
        t.store.Linked .null (row k) := by
    intro k hk
    have hmet := Check.filter_under (s := t.store) hrow hk
    rw [htop, List.flatMap_singleton] at hmet
    exact Check.chain_eq_ok_iff.mp (hmet ▸ hchains k hk)
  have hheight : ∀ k ≤ height, ∀ p ∈ row k, (t.store.node p).height = k := by
    intro k hk p hp
    rcases Nat.lt_or_eq_of_le hk with hk | rfl
    · rw [hrow k hk] at hp
      obtain ⟨q, hq, hp⟩ := List.mem_flatMap.mp hp
      exact ((hkids k hk q hq).2 p hp).2.2.1
    · rw [htop] at hp
      rw [List.mem_singleton.mp hp]
  have hspans : ∀ k < height, t.store.Spans (row k) (row (k + 1)) := by
    intro k hk
    rw [hrow k hk]
    exact .of_cells_eq (fun p hp => (hkids k hk p hp).1) fun p hp c hc =>
      ((hkids k hk p hp).2 c hc).2.2.2
  have hocc : ∀ k ≤ height, row k ≠ [] := fun k hk =>
    ne_nil_of_spans (by simp [htop]) hspans (fun k hk => (hord k hk).nonempty) hk
  refine ⟨row, height, Nat.not_lt.mp fun hlt => ?_,
    .of_rows htop hroot ?_ hspans fun c hc =>
      Check.leafCellOk_iff.mp (hleaf c hc)⟩
  · obtain ⟨p, rest, hp⟩ :=
      List.exists_cons_of_ne_nil (hocc _ (Nat.le_of_lt hlt))
    have hp : p ∈ row heightLimit := by simp [hp]
    have hp' := hp
    rw [hrow _ hlt] at hp'
    obtain ⟨q, hq, hp'⟩ := List.mem_flatMap.mp hp'
    exact ((hkids _ hlt q hq).2 p hp').2.1 (hheight _ (Nat.le_of_lt hlt) p hp)
  · intro k hk
    exact ⟨(hchain k hk).1, hheight k hk, (hchain k hk).2, (hord k hk).nonempty,
      (hord k hk).increasing, hocc k hk⟩

theorem WellFormed.check_eq_ok (w : t.WellFormed row height)
    (hlim : height ≤ heightLimit) : t.check = .ok () := by
  have hheight := w.height_root
  refine check_eq_ok_iff_passes.mpr ⟨w.live _ (Nat.le_refl _) _ w.root_mem,
    w.parent_root, ?_, ?_⟩
  · rw [hheight, ← w.top]
    refine (Check.passes_iff w.children).mpr
      ⟨fun k hk => ?_, fun k hk p hp => ?_, fun c hc => ?_⟩
    · exact ⟨w.nonempty k hk, w.increasing hk, fun u hu => nomatch hu⟩
    · refine ⟨w.cells_eq hk hp, fun c hc => ?_⟩
      have hck := (w.spans hk).mem_lower hp hc
      have hc' := w.height_eq k (Nat.le_of_lt hk) c hck
      exact ⟨w.live k (Nat.le_of_lt hk) c hck, by omega, hc',
        (w.spans hk).owns p hp c hc⟩
    · obtain ⟨h, hh, hc⟩ := Store.mem_contents.mp hc
      exact Check.leafCellOk_iff.mpr (w.leaf h hh c hc)
  · rw [hheight]
    intro k hk
    have hmet := Check.filter_under (s := t.store) w.children hk
    rw [w.top, List.flatMap_singleton] at hmet
    rw [hmet]
    exact Check.chain_eq_ok_iff.mpr ⟨w.live k hk, w.linked k hk⟩

/-- **The checker.** What passes is just the well-formed trees of a height that
a word holds. -/
theorem check_eq_ok_iff : t.check = .ok () ↔
    ∃ row height, height ≤ heightLimit ∧ t.WellFormed row height :=
  ⟨wellFormed_of_check, fun ⟨_, _, hlim, w⟩ => w.check_eq_ok hlim⟩

theorem Intact.check_eq_ok {items : List Pair}
    (i : t.Intact row height items) : t.check = .ok () := by
  have hlim := i.height_lt_heightLimit
  exact i.wellFormed.check_eq_ok (by omega)

end Tree

end LevelIndex
