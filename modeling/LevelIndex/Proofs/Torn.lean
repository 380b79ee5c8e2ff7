import LevelIndex.Proofs.Routing
import LevelIndex.Proofs.Walk
import Mathlib.Logic.Function.Basic

/-!
# Trees in the middle of a batch

When a batch arrives at the level `gap`, the levels below it are as they will
be, and those from `gap` on as they were. Such a tree is torn: the level `gap`
stores the old links of the level below. What it has to store instead is what is
`due`, at the leaves the pairs, and higher up the links of the level below.

A torn tree mends as soon as its level stores what is due (`Torn.intact`), and
rewriting the level `gap` to store what is due tears the tree one level higher
(`Torn.rewritten`). Above the root there is no level to rewrite: there a new one
stores what is due (`Torn.raised`), and mends the tree once it is a single node.

A level may get and lose nodes, but never its first one: what is due starts at
the least key (`Torn.due_first`), and so did the level. So even a torn tree can
be walked down to the leaves (`Torn.walkable`).

What a rewrite leaves alone is read off its frame, level by level: every other
level is as it was (`Torn.level_of_frame`), and the one above still stores the
links that the level had (`Torn.contents_upper`). By the latter the edits for
the next level find their way there (`Torn.routed_upper`).
-/

namespace LevelIndex

namespace Store

/-- What the level `gap` has to hold. -/
def due (s : Store) (row : Nat → List Handle) (items : List Pair) :
    Nat → List Cell
  | 0 => leafCells items
  | k + 1 => s.links (row k)

/-- The nodes below the level `gap`. -/
def beneath (row : Nat → List Handle) : Nat → List Handle
  | 0 => []
  | k + 1 => row k

@[simp] theorem childrenOf_due (s : Store) (row : Nat → List Handle)
    (items : List Pair) (gap : Nat) :
    childrenOf (s.due row items gap) = beneath row gap := by
  cases gap with
  | zero => exact childrenOf_leafCells items
  | succ k => exact childrenOf_links

end Store

namespace Tree

/-- The levels from `gap` on do not know yet what has become of the levels
below. -/
structure Torn (t : Tree) (row : Nat → List Handle) (height gap : Nat)
    (items : List Pair) : Prop extends t.store.Layers row height gap where
  gap_le : gap ≤ height + 1
  top : gap ≤ height → row height = [t.root]
  head : (row height).head? = some t.root
  /-- The first nodes do not change, so they are a path across the gap. -/
  first : ∀ k < height, k + 1 = gap →
    (t.store.node (rowHead row gap)).cells.head?.bind (·.entry.child?) =
      some (rowHead row k)
  parent_root : (t.store.node t.root).parent = .null
  leaves : 0 < gap → t.store.contents (row 0) = leafCells items
  owns : gap ≤ height → ∀ p ∈ row gap, ∀ c ∈ (t.store.node p).children,
    (t.store.node c).parent = p

namespace Torn

variable {t t' : Tree} {row : Nat → List Handle} {height gap : Nat}
  {items : List Pair}

theorem of_intact (i : t.Intact row height items) (new : List Pair) :
    t.Torn row height 0 new where
  nameable := i.nameable
  level := i.level
  spans := i.spans
  gap_le := Nat.zero_le _
  top _ := i.top
  head := by rw [i.top, List.head?_cons]
  first k _ hk := absurd hk (Nat.succ_ne_zero k)
  parent_root := i.parent_root
  leaves h := absurd h (Nat.lt_irrefl 0)
  owns _ p hp c hc := by
    have hmem := Store.mem_childrenOf_contents.mpr ⟨p, hp, hc⟩
    rw [i.leaves, childrenOf_leafCells] at hmem
    cases hmem

/-- Where the level stores what is due, or the top is reached, nothing is
torn. -/
theorem intact (r : t.Torn row height gap items)
    (hdue : gap ≤ height →
      t.store.contents (row gap) = t.store.due row items gap)
    (htop : height < gap → row height = [t.root]) :
    t.Intact row height items where
  nameable := r.nameable
  level := r.level
  spans k hk _ := by
    by_cases hg : k + 1 = gap
    · subst hg
      exact ⟨hdue hk, r.owns hk⟩
    · exact r.spans k hk hg
  top := if h : gap ≤ height then r.top h else htop (Nat.lt_of_not_le h)
  parent_root := r.parent_root
  leaves := by
    cases gap with
    | zero => exact hdue (Nat.zero_le _)
    | succ k => exact r.leaves (Nat.succ_pos k)

theorem root_mem (r : t.Torn row height gap items) : t.root ∈ row height :=
  List.mem_of_mem_head? r.head

/-- The gap does not bar the way to the leaves, since every level has kept its
first node. -/
theorem walkable (r : t.Torn row height gap items) : t.Walkable row height where
  isRow _ := r.isRow
  path := r.path fun k _ hk => by
    by_cases hg : k + 1 = gap
    · rw [hg]
      exact r.first k hk hg
    · exact r.first_child hk hg
  top := by rw [rowHead, r.head, Option.getD_some]
  height_lt := r.height_lt

theorem root_height (r : t.Torn row height gap items) :
    (t.store.node t.root).height = height :=
  (r.level height (Nat.le_refl _)).height_eq _ r.root_mem

theorem height_eq (r : t.Torn row height gap items) :
    t.height = .ok height :=
  r.walkable.height_eq

theorem live_beneath (r : t.Torn row height gap items) {k : Handle}
    (hk : k ∈ Store.beneath row gap) : t.store.contains k = true := by
  have hg := r.gap_le
  cases gap with
  | zero => cases hk
  | succ j => exact (r.level j (by omega)).live k hk

theorem nodup_beneath (r : t.Torn row height gap items) :
    (Store.beneath row gap).Nodup := by
  have hg := r.gap_le
  cases gap with
  | zero => exact List.nodup_nil
  | succ j => exact (r.level j (by omega)).nodup

theorem not_mem_beneath (r : t.Torn row height gap items) {j : Nat}
    (hj : j ≤ height) (hne : j + 1 ≠ gap) {k : Handle} (hk : k ∈ row j) :
    k ∉ Store.beneath row gap := by
  have hg := r.gap_le
  cases gap with
  | zero => exact List.not_mem_nil
  | succ i => exact r.not_mem_of_ne hj (by omega) (by omega) hk

theorem due_first (r : t.Torn row height gap items) :
    ∃ e rest, t.store.due row items gap = ⟨minKey, e⟩ :: rest := by
  have hg := r.gap_le
  cases gap with
  | zero => exact ⟨_, _, rfl⟩
  | succ k =>
      obtain ⟨h, rest, hrow, hk⟩ := (r.level k (by omega)).exists_cons
      exact ⟨.child h, t.store.links rest,
        by rw [Store.due, hrow, Store.links_cons, hk]⟩

theorem contents_above (r : t.Torn row height gap items) (hg : gap < height) :
    t.store.contents (row (gap + 1)) = t.store.links (row gap) :=
  (r.spans gap hg (by omega)).contents_eq

/-- A key in the range of a node falls in the range of its parent: the level
above the gap still has the node's link. -/
theorem floor_above (r : t.Torn row height gap items) (hg : gap < height)
    {key first : Key} {h : Handle}
    (hf : floor key (t.store.links (row gap)) = some ⟨first, .child h⟩) :
    ∃ upper, floor key (t.store.links (row (gap + 1))) =
      some ⟨upper, .child (t.store.node h).parent⟩ := by
  have hspan := r.spans gap hg (by omega)
  have hupper := r.level (gap + 1) hg
  rw [← hspan.contents_eq] at hf
  obtain ⟨q, hq, hqc, hql⟩ :=
    Store.floor_links hupper.increasing hupper.nonempty hf
  exact ⟨_,
    by rw [hql, hspan.owns q hq h (mem_childrenOf (mem_of_floor hqc).1)]⟩

theorem head_update {new : List Handle} (hhead : new.head? = (row gap).head?)
    (k : Nat) : (Function.update row gap new k).head? = (row k).head? := by
  by_cases hk : k = gap
  · rw [hk, Function.update_self, hhead]
  · rw [Function.update_of_ne hk]

section Rewritten

variable (r : t.Torn row height gap items) (hg : gap ≤ height)
  (f : Store.Frame t.store t'.store (row gap) (Store.beneath row gap))
include r hg f

theorem level_of_frame {k : Nat} (hk : k ≤ height) (hne : k ≠ gap) :
    t'.store.IsLevel k (row k) :=
  (r.level k hk).frame f fun _ hh => r.not_mem_of_ne hk hg hne hh

theorem cells_of_frame {k : Nat} (hk : k ≤ height) (hne : k ≠ gap) :
    ∀ p ∈ row k, (t'.store.node p).cells = (t.store.node p).cells :=
  fun p hp => f.cells ((r.level k hk).live p hp) (r.not_mem_of_ne hk hg hne hp)

/-- The level above still stores the links that the level had, since rewriting a
level touches neither the level above nor, so far, what is stored of it
there. -/
theorem contents_upper (h : gap < height) (new : List Handle) :
    t'.store.contents (Function.update row gap new (gap + 1)) =
      t.store.links (row gap) := by
  have hne := Nat.succ_ne_self gap
  rw [Function.update_of_ne hne,
    Store.contents_congr (r.cells_of_frame hg f h hne), r.contents_above h]

theorem routed_upper (h : gap < height) (new : List Handle)
    {staged : List Edit} (hs : ∀ e ∈ staged, ∃ first k,
      floor e.key (t.store.links (row gap)) = some ⟨first, .child k⟩ ∧
      e.target = (t.store.node k).parent) :
    t'.store.Routed (Function.update row gap new (gap + 1)) staged := by
  have hne := Nat.succ_ne_self gap
  intro e he
  obtain ⟨first, k, hfloor, htarget⟩ := hs e he
  obtain ⟨upper, hupper⟩ := r.floor_above h hfloor
  rw [Function.update_of_ne hne,
    Store.links_congr (r.cells_of_frame hg f h hne)]
  exact ⟨upper, by rw [hupper, htarget]⟩

theorem spans_of_frame {k : Nat} (hk : k < height) (hne : k ≠ gap)
    (hne' : k + 1 ≠ gap) : t'.store.Spans (row k) (row (k + 1)) :=
  (r.spans k hk hne').frame (r.level (k + 1) hk) (r.level k (by omega)) f
    (fun _ hh => r.not_mem_of_ne hk hg hne' hh)
    (fun _ hh => r.not_mem_of_ne (by omega) hg hne hh)
    fun _ hh => r.not_mem_beneath (by omega) hne' hh

theorem owns_of_frame (h : gap < height) : ∀ p ∈ row (gap + 1),
    ∀ c ∈ (t'.store.node p).children, (t'.store.node c).parent = p := by
  intro p hp c hc
  have hs := r.spans gap h (by omega)
  rw [Node.children_eq,
    r.cells_of_frame hg f h (Nat.succ_ne_self gap) p hp] at hc
  have hcg := hs.mem_lower hp hc
  rw [f.parent c ((r.level gap hg).live c hcg)
    (r.not_mem_beneath hg (by omega) hcg)]
  exact hs.owns p hp c hc

/-- A level that stores what is due tears the tree one level higher. The level
below the new gap is the one that was waiting, and the gap is where its old
links are. -/
theorem rewritten (hroot : t'.root = t.root) {new : List Handle}
    (hnew : t'.store.IsLevel gap new)
    (hcont : t'.store.contents new = t.store.due row items gap)
    (howns : ∀ p ∈ new, ∀ c ∈ (t'.store.node p).children,
      (t'.store.node c).parent = p) (hhead : new.head? = (row gap).head?) :
    t'.Torn (Function.update row gap new) height (gap + 1) items where
  nameable := f.capacity ▸ r.nameable
  level k hk := by
    by_cases hkg : k = gap
    · rw [hkg, Function.update_self]
      exact hnew
    · rw [Function.update_of_ne hkg]
      exact r.level_of_frame hg f hk hkg
  spans k hk hne := by
    have hkg : k ≠ gap := fun h => hne (by omega)
    rw [Function.update_of_ne hkg]
    by_cases hk1 : k + 1 = gap
    · subst hk1
      rw [Function.update_self]
      refine ⟨?_, howns⟩
      rw [hcont]
      exact (Store.links_congr
        (r.cells_of_frame hg f (Nat.le_of_lt hk) hkg)).symm
    · rw [Function.update_of_ne hk1]
      exact r.spans_of_frame hg f hk hkg hk1
  gap_le := Nat.succ_le_succ hg
  top h := by
    rw [Function.update_of_ne (by omega), hroot]
    exact r.top hg
  head := by
    rw [head_update hhead, hroot]
    exact r.head
  first k hk hkg := by
    obtain rfl : gap = k := by omega
    obtain ⟨q, upper, hq, -⟩ := (r.level (gap + 1) hk).exists_cons
    have hmem : rowHead row (gap + 1) ∈ row (gap + 1) := by simp [rowHead, hq]
    rw [rowHead, rowHead, head_update hhead, head_update hhead, ← rowHead,
      ← rowHead, r.cells_of_frame hg f hk (by omega) _ hmem]
    exact r.first_child hk (by omega)
  parent_root := by
    rw [hroot, f.parent t.root
      ((r.level height (Nat.le_refl _)).live t.root r.root_mem)
      (r.not_mem_beneath (Nat.le_refl _) (by omega) r.root_mem)]
    exact r.parent_root
  leaves _ := by
    by_cases hg0 : gap = 0
    · subst hg0
      rw [Function.update_self]
      exact hcont
    · have hne : 0 ≠ gap := Ne.symm hg0
      rw [Function.update_of_ne hne, ← r.leaves (Nat.pos_of_ne_zero hg0)]
      exact Store.contents_congr
        (r.cells_of_frame hg f (Nat.zero_le _) hne)
  owns h := by
    rw [Function.update_of_ne (Nat.succ_ne_self gap)]
    exact r.owns_of_frame hg f h

end Rewritten

/-- A level over the root that stores the links of the root's level is the new
top. The old top lies under it from now on. -/
theorem raised (r : t.Torn row height (height + 1) items)
    (f : Store.Frame t.store t'.store [] (row height)) {new : List Handle}
    (hnew : t'.store.IsLevel (height + 1) new)
    (hcont : t'.store.contents new = t.store.links (row height))
    (howns : ∀ p ∈ new, ∀ c ∈ (t'.store.node p).children,
      (t'.store.node c).parent = p) (hroot : new.head? = some t'.root)
    (hparent : (t'.store.node t'.root).parent = .null) :
    t'.Torn (Function.update row (height + 1) new) (height + 1) (height + 1 + 1)
      items := by
  have hold : ∀ k ≤ height, Function.update row (height + 1) new k = row k := by
    intro k hk
    exact Function.update_of_ne (by omega) _ _
  have hcells : ∀ k ≤ height, ∀ h ∈ row k, (t'.store.node h).cells =
      (t.store.node h).cells :=
    fun k hk h hh => f.cells ((r.level k hk).live h hh) (by simp)
  exact
    { nameable := f.capacity ▸ r.nameable
      level := fun k hk => by
        rcases Nat.lt_or_eq_of_le hk with hk | rfl
        · rw [hold k (by omega)]
          exact (r.level k (by omega)).frame f (by simp)
        · rw [Function.update_self]
          exact hnew
      spans := fun k hk _ => by
        rw [hold k (by omega)]
        rcases Nat.lt_or_eq_of_le (Nat.le_of_lt_succ hk) with hk | rfl
        · rw [hold (k + 1) hk]
          exact (r.spans k hk (by omega)).frame (r.level (k + 1) hk)
            (r.level k (by omega)) f (by simp) (by simp) fun h hh =>
              r.not_mem_of_ne (Nat.le_of_lt hk) (Nat.le_refl _)
                (Nat.ne_of_lt hk) hh
        · rw [Function.update_self]
          exact ⟨hcont.trans
            (Store.links_congr (hcells _ (Nat.le_refl _))).symm, howns⟩
      gap_le := Nat.le_refl _
      top := fun h => absurd h (by omega)
      head := by
        rw [Function.update_self]
        exact hroot
      first := fun k hk hkg => absurd hkg (by omega)
      parent_root := hparent
      leaves := fun _ => by
        rw [hold 0 (Nat.zero_le _), ← r.leaves (Nat.succ_pos _)]
        exact Store.contents_congr (hcells 0 (Nat.zero_le _))
      owns := fun h => absurd h (by omega) }

end Torn

end Tree

end LevelIndex
