import LevelIndex.Proofs.Store.View
import Mathlib.Data.List.Chain
import Mathlib.Data.List.Perm.Subperm
import Mathlib.Tactic.Choose

/-!
# The levels of a tree

A level is a row of handles, from left to right. Its nodes read one after the
other give its *contents*, and what parents store of them, first keys with
handles, are its *links*. A tree is in order where the contents of each level
are the links of the level below (`Spans`): nothing is said of single parents
and children, since a batch works on whole levels, and neighbours under
different parents are as close as others.

`IsRow` is what walks and searches need of a level: nodes of one height, a chain
of right links that ends in null, nodes with cells, and keys that increase over
the whole level. `IsLevel` is what every level of a tree satisfies by itself
while the engines work on it: its keys increase from the least key on, and its
nodes are half full but for the last.

The key range of a node runs from its first key to that of its right neighbour.
`floor_links` finds the node whose range holds a key: it is the one with the
floor of the key among all cells of the level.

Each of the three has congruence lemmas, for a store in which the nodes of a row
have kept what the lemma needs of them (`contents_congr`, `linked_congr`,
`IsLevel.of_body_eq`), and frame lemmas, for a store that a step has changed
elsewhere. The engines rewrite a row node by node, and carry the rest of the row
and the other rows past each rewrite by these.
-/

namespace LevelIndex

/-- The handles among the entries of cells, in order. -/
def childrenOf (cells : List Cell) : List Handle :=
  cells.filterMap (·.entry.child?)

@[simp] theorem childrenOf_nil : childrenOf [] = [] := rfl

theorem childrenOf_append (l m : List Cell) :
    childrenOf (l ++ m) = childrenOf l ++ childrenOf m :=
  List.filterMap_append

theorem childrenOf_flatMap {α : Type} (l : List α) (f : α → List Cell) :
    childrenOf (l.flatMap f) = l.flatMap fun a => childrenOf (f a) := by
  induction l with
  | nil => rfl
  | cons a l ih => rw [List.flatMap_cons, childrenOf_append, ih,
    List.flatMap_cons]

theorem mem_childrenOf {cells : List Cell} {key : Key} {h : Handle}
    (hc : (⟨key, .child h⟩ : Cell) ∈ cells) : h ∈ childrenOf cells :=
  List.mem_filterMap.mpr ⟨_, hc, rfl⟩

theorem Node.children_eq (n : Node) : n.children = childrenOf n.cells := rfl

namespace Node

variable {n : Node}

theorem exists_cons (h : n.cells ≠ []) :
    ∃ c rest, n.cells = c :: rest ∧ n.firstKey = c.key := by
  obtain ⟨c, rest, hc⟩ := List.exists_cons_of_ne_nil h
  exact ⟨c, rest, hc, by simp [firstKey, keys, hc]⟩

theorem firstKey_le (hi : Increasing n.cells) {c : Cell} (hc : c ∈ n.cells) :
    n.firstKey ≤ c.key := by
  obtain ⟨d, rest, hd, hk⟩ := exists_cons (List.ne_nil_of_mem hc)
  rw [hd] at hi hc
  rw [hk]
  rcases List.mem_cons.mp hc with rfl | hc
  · exact Int64.le_refl _
  · exact Int64.le_of_lt (List.rel_of_pairwise_cons hi hc)

theorem exists_mem_key_eq_firstKey (h : n.cells ≠ []) :
    ∃ c ∈ n.cells, c.key = n.firstKey := by
  obtain ⟨c, rest, hc, hk⟩ := exists_cons h
  exact ⟨c, by simp [hc], hk.symm⟩

end Node

namespace Store

variable {s s' : Store} {row l m : List Handle} {h : Handle}

/-- The cells of some nodes, read from left to right. -/
def contents (s : Store) (row : List Handle) : List Cell :=
  row.flatMap fun h => (s.node h).cells

/-- What a parent stores of some nodes: their first keys with their handles. -/
def links (s : Store) (row : List Handle) : List Cell :=
  row.map fun h => ⟨(s.node h).firstKey, .child h⟩

/-- Each node points right at the next one, and the last at `stop`. -/
def Linked (s : Store) (stop : Handle) : List Handle → Prop
  | [] => True
  | h :: row => (s.node h).right = row.head?.getD stop ∧ Linked s stop row

@[simp] theorem contents_nil : s.contents [] = [] := rfl

@[simp] theorem contents_cons :
    s.contents (h :: row) = (s.node h).cells ++ s.contents row := rfl

theorem contents_append : s.contents (l ++ m) = s.contents l ++ s.contents m :=
  List.flatMap_append

theorem contents_sublist (hs : l.Sublist row) :
    (s.contents l).Sublist (s.contents row) := by
  induction hs with
  | slnil => exact List.Sublist.slnil
  | cons h _ ih => exact ih.trans (List.sublist_append_right _ _)
  | cons_cons h _ ih => exact ih.append_left _

theorem cells_sublist_contents (hh : h ∈ row) :
    (s.node h).cells.Sublist (s.contents row) := by
  simpa using contents_sublist (s := s) (List.singleton_sublist.mpr hh)

theorem mem_contents {c : Cell} :
    c ∈ s.contents row ↔ ∃ h ∈ row, c ∈ (s.node h).cells :=
  List.mem_flatMap

theorem mem_childrenOf_contents {c : Handle} :
    c ∈ childrenOf (s.contents row) ↔ ∃ p ∈ row, c ∈ (s.node p).children := by
  rw [contents, childrenOf_flatMap]
  exact List.mem_flatMap

@[simp] theorem links_nil : s.links [] = [] := rfl

@[simp] theorem links_cons :
    s.links (h :: row) = ⟨(s.node h).firstKey, .child h⟩ :: s.links row := rfl

theorem links_append : s.links (l ++ m) = s.links l ++ s.links m :=
  List.map_append

theorem mem_links {c : Cell} :
    c ∈ s.links row ↔ ∃ h ∈ row, (⟨(s.node h).firstKey, .child h⟩ : Cell) = c :=
  List.mem_map

@[simp] theorem childrenOf_links : childrenOf (s.links row) = row := by
  induction row with
  | nil => rfl
  | cons h row ih => simpa [childrenOf] using ih

theorem eq_links_childrenOf {cells : List Cell}
    (h : ∀ c ∈ cells, ∃ k, (⟨(s.node k).firstKey, .child k⟩ : Cell) = c) :
    cells = s.links (childrenOf cells) := by
  induction cells with
  | nil => rfl
  | cons c cells ih =>
      obtain ⟨k, rfl⟩ := h c (by simp)
      show _ = s.links (k :: childrenOf cells)
      rw [links_cons, ← ih fun d hd => h d (List.mem_cons_of_mem _ hd)]

theorem linked_append {stop : Handle} :
    s.Linked stop (l ++ m) ↔ s.Linked (m.head?.getD stop) l ∧
      s.Linked stop m := by
  induction l with
  | nil => simp [Linked]
  | cons h l ih =>
      have hhead : ((l ++ m).head?).getD stop =
          l.head?.getD (m.head?.getD stop) := by
        cases l <;> simp
      rw [List.cons_append, Linked, Linked, ih, hhead, and_assoc]

theorem Linked.last_right {stop : Handle} (hl : s.Linked stop row)
    (hne : row ≠ []) :
    row.getLast?.map (fun h => (s.node h).right) = some stop := by
  obtain ⟨front, last, rfl⟩ : ∃ front last, row = front ++ [last] :=
    ⟨_, _, (List.dropLast_append_getLast hne).symm⟩
  rw [List.getLast?_concat]
  exact congrArg some (linked_append.mp hl).2.1

theorem contents_congr (h : ∀ k ∈ row, (s'.node k).cells = (s.node k).cells) :
    s'.contents row = s.contents row := by
  rw [contents, contents, List.flatMap_def, List.flatMap_def,
    List.map_congr_left h]

theorem links_congr (h : ∀ k ∈ row, (s'.node k).cells = (s.node k).cells) :
    s'.links row = s.links row :=
  List.map_congr_left fun k hk => by rw [Node.firstKey_eq_of_cells_eq (h k hk)]

theorem linked_congr {stop : Handle}
    (h : ∀ k ∈ row, (s'.node k).right = (s.node k).right) :
    s'.Linked stop row ↔ s.Linked stop row := by
  induction row with
  | nil => rfl
  | cons k row ih =>
      rw [Linked, Linked, h k (by simp),
        ih fun j hj => h j (List.mem_cons_of_mem _ hj)]

theorem length_le_allocated (hnd : row.Nodup)
    (hlive : ∀ h ∈ row, s.contains h = true) : row.length ≤ s.allocated := by
  have hsub : row ⊆ (List.range s.allocated).map Handle.slot := by
    intro h hh
    have hc := hlive h hh
    cases h with
    | null => cases hc
    | slot i => exact List.mem_map.mpr ⟨i, by simpa [contains] using hc, rfl⟩
  simpa using (List.subperm_of_subset hnd hsub).length_le

/-! ## Order along a row -/

section Order

variable (hi : Increasing (s.contents row))
  (hne : ∀ h ∈ row, (s.node h).cells ≠ [])
include hi

theorem increasing_cells (hh : h ∈ row) : Increasing (s.node h).cells :=
  hi.sublist (cells_sublist_contents hh)

omit hi in
theorem firstKey_le_of_mem_contents {c : Cell}
    (hi : Increasing (s.contents (h :: row))) (hh : (s.node h).cells ≠ [])
    (hc : c ∈ s.contents (h :: row)) : (s.node h).firstKey ≤ c.key := by
  obtain ⟨d, rest, hcells, hk⟩ := Node.exists_cons hh
  rw [contents_cons, hcells, List.cons_append] at hi hc
  rw [hk]
  rcases List.mem_cons.mp hc with rfl | hc
  · exact Int64.le_refl _
  · exact Int64.le_of_lt (List.rel_of_pairwise_cons hi hc)

include hne

theorem nodup_of_increasing : row.Nodup := by
  induction row with
  | nil => exact List.Pairwise.nil
  | cons h row ih =>
      have hi' := (List.pairwise_append.mp hi)
      refine List.nodup_cons.mpr ⟨fun hmem => ?_, ih hi'.2.1 fun k hk =>
        hne k (List.mem_cons_of_mem _ hk)⟩
      obtain ⟨c, hc, -⟩ := Node.exists_mem_key_eq_firstKey (hne h (by simp))
      exact Int64.lt_irrefl (hi'.2.2 c hc c (mem_contents.mpr ⟨h, hmem, hc⟩))

theorem increasing_links : Increasing (s.links row) := by
  induction row with
  | nil => exact List.Pairwise.nil
  | cons h row ih =>
      have hi' := (List.pairwise_append.mp hi)
      refine List.pairwise_cons.mpr ⟨fun c hc => ?_, ih hi'.2.1 fun k hk =>
        hne k (List.mem_cons_of_mem _ hk)⟩
      obtain ⟨k, hk, rfl⟩ := mem_links.mp hc
      obtain ⟨a, ha, hak⟩ := Node.exists_mem_key_eq_firstKey (hne h (by simp))
      obtain ⟨b, hb, hbk⟩ :=
        Node.exists_mem_key_eq_firstKey (hne k (List.mem_cons_of_mem _ hk))
      show (s.node h).firstKey < (s.node k).firstKey
      rw [← hak, ← hbk]
      exact hi'.2.2 a ha b (mem_contents.mpr ⟨k, hk, hb⟩)

omit hi in
/-- Keys that increase in each node and lie below the first key of the next one
increase along the row. Every node in between has a cell, or its first key would
bound nothing. -/
theorem increasing_of_isChain (hcells : ∀ h ∈ row, Increasing (s.node h).cells)
    (hc : row.IsChain fun p q =>
      ∀ c ∈ (s.node p).cells, c.key < (s.node q).firstKey) :
    Increasing (s.contents row) := by
  induction row with
  | nil => exact List.Pairwise.nil
  | cons h row ih =>
      have hrest := ih (fun k hk => hne k (List.mem_cons_of_mem _ hk))
        (fun k hk => hcells k (List.mem_cons_of_mem _ hk)) hc.tail
      refine List.pairwise_append.mpr ⟨hcells h (by simp), hrest, ?_⟩
      intro c hch d hd
      cases row with
      | nil => cases hd
      | cons q row =>
          refine Int64.lt_of_lt_of_le ((List.isChain_cons_cons.mp hc).1 c hch) ?_
          exact firstKey_le_of_mem_contents hrest (hne q (by simp)) hd

theorem floor_links_of_mem {p : Handle} (hp : p ∈ row) {c : Cell}
    (hc : c ∈ (s.node p).cells) :
    floor c.key (s.links row) = some ⟨(s.node p).firstKey, .child p⟩ := by
  have hcells := increasing_cells hi hp
  obtain ⟨l, m, rfl⟩ := List.append_of_mem hp
  rw [contents_append, contents_cons] at hi
  have hnext := (List.pairwise_append.mp (List.pairwise_append.mp hi).2.1).2.2
  rw [links_append, links_cons]
  refine floor_of_split (Node.firstKey_le hcells hc) fun d hd => ?_
  obtain ⟨q, hq, rfl⟩ := mem_links.mp hd
  obtain ⟨b, hb, hbk⟩ := Node.exists_mem_key_eq_firstKey (hne q (by simp [hq]))
  show c.key < (s.node q).firstKey
  rw [← hbk]
  exact hnext c hc b (mem_contents.mpr ⟨q, hq, hb⟩)

/-- The key range in which a key falls is that of the node with the floor of the
key. A key between the last cell of a node and the first of the next one belongs
to the former. -/
theorem floor_links {key : Key} {c : Cell}
    (hf : floor key (s.contents row) = some c) :
    ∃ p ∈ row, floor key (s.node p).cells = some c ∧
      floor key (s.links row) = some ⟨(s.node p).firstKey, .child p⟩ := by
  induction row with
  | nil => cases hf
  | cons p row ih =>
      have hi' := (List.pairwise_append.mp hi)
      have hne' : ∀ h ∈ row, (s.node h).cells ≠ [] :=
        fun k hk => hne k (List.mem_cons_of_mem _ hk)
      rw [contents_cons, floor_append] at hf
      rw [links_cons, floor_cons]
      cases hr : floor key (s.contents row) with
      | some d =>
          rw [hr] at hf
          obtain rfl := Option.some.inj hf
          obtain ⟨q, hq, hcells, hlinks⟩ := ih hi'.2.1 hne' hr
          exact ⟨q, List.mem_cons_of_mem _ hq, hcells, by rw [hlinks]; rfl⟩
      | none =>
          rw [hr] at hf
          have hfp : floor key (s.node p).cells = some c := hf
          have hrest : floor key (s.links row) = none := by
            refine floor_eq_none ?_
            intro d hd
            obtain ⟨k, hk, rfl⟩ := mem_links.mp hd
            obtain ⟨b, hb, hbk⟩ := Node.exists_mem_key_eq_firstKey (hne' k hk)
            refine Int64.not_le.mp ?_
            intro hle
            obtain ⟨d, hd⟩ :=
              floor_isSome_of_mem (mem_contents.mpr ⟨k, hk, hb⟩) (hbk ▸ hle)
            rw [hr] at hd
            cases hd
          have hle : (s.node p).firstKey ≤ key :=
            Int64.le_trans (Node.firstKey_le hi'.1 (mem_of_floor hfp).1)
              (mem_of_floor hfp).2
          refine ⟨p, by simp, hfp, ?_⟩
          rw [hrest, floor_singleton, if_pos hle]
          rfl

end Order

/-! ## Levels

A level by itself, and two levels one above the other. That the upper one
stores the links of the lower one is said of their contents as a whole; what a
single node has for its children follows (`Spans.cells_eq`). -/

/-- A chain of nodes of one height whose keys increase from its first cell to
its last. -/
structure IsRow (s : Store) (height : Nat) (row : List Handle) : Prop where
  live : ∀ h ∈ row, s.contains h = true
  height_eq : ∀ h ∈ row, (s.node h).height = height
  linked : s.Linked .null row
  nonempty : ∀ h ∈ row, (s.node h).cells ≠ []
  increasing : Increasing (s.contents row)
  occupied : row ≠ []

/-- What each level of a tree satisfies by itself. -/
structure IsLevel (s : Store) (height : Nat) (row : List Handle) : Prop where
  live : ∀ h ∈ row, s.contains h = true
  height_eq : ∀ h ∈ row, (s.node h).height = height
  linked : s.Linked .null row
  nonempty : ∀ h ∈ row, (s.node h).cells ≠ []
  increasing : Increasing (s.contents row)
  first : ∃ e rest, s.contents row = ⟨minKey, e⟩ :: rest
  half : ∀ h ∈ row.dropLast, Node.half ≤ (s.node h).size

/-- The upper row stores the links of the lower one, and its nodes are the
owners of their children. -/
structure Spans (s : Store) (lower upper : List Handle) : Prop where
  contents_eq : s.contents upper = s.links lower
  owns : ∀ p ∈ upper, ∀ c ∈ (s.node p).children, (s.node c).parent = p

namespace IsRow

variable {height : Nat}

theorem nodup (hr : s.IsRow height row) : row.Nodup :=
  nodup_of_increasing hr.increasing hr.nonempty

theorem increasing_cells (hr : s.IsRow height row) (hh : h ∈ row) :
    Increasing (s.node h).cells :=
  Store.increasing_cells hr.increasing hh

theorem read (hr : s.IsRow height row) (hh : h ∈ row) :
    s.read h = .ok (s.node h) :=
  read_eq_ok (hr.live h hh) (hr.increasing_cells hh)

theorem get?_eq (hr : s.IsRow height row) (hh : h ∈ row) :
    s.get? h = some (s.node h) :=
  get?_eq_some_node (hr.live h hh)

theorem exists_floor (hr : s.IsRow height row) {key : Key} {c : Cell}
    (hf : floor key (s.links row) = some c) :
    ∃ d, floor key (s.contents row) = some d := by
  obtain ⟨hc, hle⟩ := mem_of_floor hf
  obtain ⟨h, hh, rfl⟩ := mem_links.mp hc
  obtain ⟨d, hd, hdk⟩ := Node.exists_mem_key_eq_firstKey (hr.nonempty h hh)
  exact floor_isSome_of_mem (mem_contents.mpr ⟨h, hh, hd⟩) (hdk ▸ hle)

/-- The range of a node runs from its first key to that of its right neighbour,
if it has one. -/
theorem floor_links_iff (hr : s.IsRow height row) {key : Key} (hh : h ∈ row) :
    floor key (s.links row) = some ⟨(s.node h).firstKey, .child h⟩ ↔
      (s.node h).firstKey ≤ key ∧
        ∀ n, s.get? (s.node h).right = some n → key < n.firstKey := by
  have hi := increasing_links hr.increasing hr.nonempty
  obtain ⟨l, m, rfl⟩ := List.append_of_mem hh
  have hright : (s.node h).right = m.head?.getD .null :=
    ((linked_append.mp hr.linked).2).1
  rw [links_append, links_cons] at hi ⊢
  constructor
  · intro hf
    refine ⟨(mem_of_floor hf).2, fun n hn => ?_⟩
    cases m with
    | nil =>
        rw [hright] at hn
        cases hn
    | cons q m =>
        rw [hright, List.head?_cons, Option.getD_some] at hn
        obtain rfl := node_eq_of_get? hn
        refine Int64.not_le.mp fun hle => ?_
        have hback := key_le_of_floor hi hf
          (d := ⟨(s.node q).firstKey, .child q⟩) (by simp) hle
        exact absurd (List.rel_of_pairwise_cons (List.pairwise_append.mp hi).2.1
          (by simp)) (Int64.not_lt.mpr hback)
  · rintro ⟨hle, hlt⟩
    refine floor_of_split hle fun d hd => ?_
    cases m with
    | nil => cases hd
    | cons q m =>
        have hq : key < (s.node q).firstKey := by
          refine hlt _ ?_
          rw [hright]
          exact hr.get?_eq (by simp)
        rcases List.mem_cons.mp hd with rfl | hd
        · exact hq
        · have hqm := (List.pairwise_append.mp hi).2.1.tail
          exact Int64.lt_trans hq (List.rel_of_pairwise_cons hqm hd)

end IsRow

/-! ## Rows above each other

Nodes of different heights are different nodes. Rows of different heights have
therefore nothing in common, and a store has a slot for each height at least. -/

section Rows

variable {rows : Nat → List Handle} {height : Nat}
  (hr : ∀ k ≤ height, s.IsRow k (rows k))
include hr

theorem not_mem_row_of_ne {j k : Nat} (hj : j ≤ height) (hk : k ≤ height)
    (hne : j ≠ k) (hh : h ∈ rows j) : h ∉ rows k := fun hm =>
  hne (((hr j hj).height_eq h hh).symm.trans ((hr k hk).height_eq h hm))

theorem height_lt_allocated : height < s.allocated := by
  have hhead : ∀ k : Nat, ∃ h, k ≤ height → h ∈ rows k := by
    intro k
    by_cases hk : k ≤ height
    · obtain ⟨h, rest, hrow⟩ :=
        List.exists_cons_of_ne_nil (hr k hk).occupied
      exact ⟨h, fun _ => by simp [hrow]⟩
    · exact ⟨.null, fun h => absurd h hk⟩
  choose head hmem using hhead
  have hle : ((List.range (height + 1)).map head).length ≤ s.allocated := by
    refine length_le_allocated ?_ ?_
    · refine List.pairwise_map.mpr
        (List.Pairwise.imp_of_mem ?_ List.nodup_range)
      intro j k hj hk hne heq
      have hj' : j ≤ height := by simpa [Nat.lt_succ_iff] using hj
      have hk' : k ≤ height := by simpa [Nat.lt_succ_iff] using hk
      exact not_mem_row_of_ne hr hj' hk' hne (hmem j hj') (heq ▸ hmem k hk')
    · intro h hh
      obtain ⟨k, hk, rfl⟩ := List.mem_map.mp hh
      have hk' : k ≤ height := by simpa [Nat.lt_succ_iff] using hk
      exact (hr k hk').live _ (hmem k hk')
  rw [List.length_map, List.length_range] at hle
  exact hle

end Rows

namespace IsLevel

variable {height : Nat}

theorem isRow (hl : s.IsLevel height row) : s.IsRow height row where
  live := hl.live
  height_eq := hl.height_eq
  linked := hl.linked
  nonempty := hl.nonempty
  increasing := hl.increasing
  occupied := by
    obtain ⟨e, rest, hfirst⟩ := hl.first
    rintro rfl
    cases hfirst

theorem nodup (hl : s.IsLevel height row) : row.Nodup :=
  hl.isRow.nodup

theorem increasing_cells (hl : s.IsLevel height row) (hh : h ∈ row) :
    Increasing (s.node h).cells :=
  hl.isRow.increasing_cells hh

theorem increasing_links (hl : s.IsLevel height row) :
    Increasing (s.links row) :=
  Store.increasing_links hl.increasing hl.nonempty

theorem exists_cons (hl : s.IsLevel height row) :
    ∃ h rest, row = h :: rest ∧ (s.node h).firstKey = minKey := by
  obtain ⟨e, cells, hfirst⟩ := hl.first
  cases row with
  | nil => cases hfirst
  | cons h rest =>
      obtain ⟨c, cs, hc, hk⟩ := Node.exists_cons (hl.nonempty h (by simp))
      rw [contents_cons, hc] at hfirst
      obtain ⟨rfl, -⟩ := List.cons.inj hfirst
      exact ⟨h, rest, rfl, hk⟩

theorem read (hl : s.IsLevel height row) (hh : h ∈ row) :
    s.read h = .ok (s.node h) :=
  hl.isRow.read hh

/-- A level is still one where its nodes have kept all but their parents, which
is what a step leaves of a level that it only hands to another owner. -/
theorem of_body_eq (hl : s.IsLevel height row)
    (hlive : ∀ h ∈ row, s'.contains h = true)
    (hbody : ∀ h ∈ row, (s'.node h).body = (s.node h).body) :
    s'.IsLevel height row where
  live := hlive
  height_eq h hh := by
    rw [Node.height_eq_of_body_eq (hbody h hh), hl.height_eq h hh]
  linked := (linked_congr fun k hk => Node.right_eq_of_body_eq (hbody k hk)).mpr
    hl.linked
  nonempty h hh := by
    rw [Node.cells_eq_of_body_eq (hbody h hh)]; exact hl.nonempty h hh
  increasing := by
    rw [contents_congr fun k hk => Node.cells_eq_of_body_eq (hbody k hk)]
    exact hl.increasing
  first := by
    rw [contents_congr fun k hk => Node.cells_eq_of_body_eq (hbody k hk)]
    exact hl.first
  half h hh := by
    rw [Node.size,
      Node.cells_eq_of_body_eq (hbody h (List.dropLast_subset _ hh))]
    exact hl.half h hh

theorem frame {w a : List Handle} (hl : s.IsLevel height row)
    (f : Frame s s' w a) (hw : ∀ h ∈ row, h ∉ w) : s'.IsLevel height row :=
  hl.of_body_eq (fun h hh => f.contains (hl.live h hh)) fun h hh =>
    f.body h (hl.live h hh) (hw h hh)

end IsLevel

namespace Spans

variable {lower upper : List Handle}

theorem flatMap_children (hs : s.Spans lower upper) :
    (upper.flatMap fun p => (s.node p).children) = lower := by
  have h := congrArg childrenOf hs.contents_eq
  rw [childrenOf_links, contents, childrenOf_flatMap] at h
  exact h

theorem mem_lower (hs : s.Spans lower upper) {p c : Handle} (hp : p ∈ upper)
    (hc : c ∈ (s.node p).children) : c ∈ lower := by
  rw [← hs.flatMap_children]
  exact List.mem_flatMap.mpr ⟨p, hp, hc⟩

/-- The cells of an upper node are the links of its children. -/
theorem cells_eq (hs : s.Spans lower upper) {p : Handle} (hp : p ∈ upper) :
    (s.node p).cells = s.links (s.node p).children := by
  refine eq_links_childrenOf fun c hc => ?_
  have hmem := mem_contents.mpr ⟨p, hp, hc⟩
  rw [hs.contents_eq] at hmem
  obtain ⟨h, -, hh⟩ := mem_links.mp hmem
  exact ⟨h, hh⟩

theorem lower_ne_nil (hs : s.Spans lower upper) {p : Handle} (hp : p ∈ upper)
    (hne : (s.node p).cells ≠ []) : lower ≠ [] := by
  rintro rfl
  have hcells := hs.cells_eq hp
  obtain ⟨c, rest, hc, -⟩ := Node.exists_cons hne
  obtain ⟨h, hh, -⟩ := mem_links.mp
    (hcells ▸ hc ▸ List.mem_cons_self : c ∈ s.links (s.node p).children)
  cases hs.mem_lower hp hh

/-- Nodes that hold the links of their children, and own them, span these. -/
theorem of_cells_eq
    (hcells : ∀ p ∈ upper, (s.node p).cells = s.links (s.node p).children)
    (howns : ∀ p ∈ upper, ∀ c ∈ (s.node p).children, (s.node c).parent = p) :
    s.Spans (upper.flatMap fun p => (s.node p).children) upper where
  contents_eq := by
    rw [links, List.map_flatMap, contents, List.flatMap_def, List.flatMap_def,
      List.map_congr_left hcells]
    rfl
  owns := howns

theorem frame {w a : List Handle} {height : Nat} (hs : s.Spans lower upper)
    (hu : s.IsLevel (height + 1) upper) (hl : s.IsLevel height lower)
    (f : Frame s s' w a) (hwu : ∀ h ∈ upper, h ∉ w) (hwl : ∀ h ∈ lower, h ∉ w)
    (ha : ∀ h ∈ lower, h ∉ a) : s'.Spans lower upper where
  contents_eq := by
    rw [contents_congr fun k hk => f.cells (hu.live k hk) (hwu k hk),
      links_congr fun k hk => f.cells (hl.live k hk) (hwl k hk), hs.contents_eq]
  owns p hp c hc := by
    rw [Node.children_eq, f.cells (hu.live p hp) (hwu p hp)] at hc
    have hcl := hs.mem_lower hp hc
    rw [f.parent c (hl.live c hcl) (ha c hcl), hs.owns p hp c hc]

end Spans

end Store

end LevelIndex
