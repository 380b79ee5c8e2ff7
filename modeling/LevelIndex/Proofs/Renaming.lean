import LevelIndex.Proofs.Store.Closed
import LevelIndex.Proofs.Walk
import Mathlib.Logic.Equiv.Defs

/-!
# Trees that differ in the slots of their nodes

`t.Renamed ρ t'` says that the tree `t'` is the tree `t` with its slots renamed
by the permutation `ρ`: the node in the slot `ρ k` is the node in the slot `k`
with the handles in it renamed. A slot that is not in use keeps its name, since
slots are handed out in order whatever the nodes in them; so no slot in use is
given the name of one that is not.

What is read off a tree without naming its slots is the same for both
(`Renamed.congruent`): the number of its nodes level by level, what it stores,
and its shape, which tells where the links of the nodes lead by their position
on a level (`nodeShape_eq`). Walks are compared step by step. A step either
fails in both trees or goes to renamed handles in both (`Alike`), and a walk
inherits this from its steps (`chain_alike`).
-/

namespace LevelIndex

theorem overHeights_alike {α β : Type} {f : Nat → Except Fault α}
    {g : Nat → Except Fault β} {φ : α → β}
    (h : ∀ height, Alike φ (f height) (g height)) : ∀ count height,
    Alike (List.map φ) (overHeights f count height) (overHeights g count height)
  | 0, _ => rfl
  | count + 1, height => by
      rw [overHeights, overHeights]
      exact (h height).bind fun a _ =>
        (overHeights_alike h count (height + 1)).bind fun as _ => rfl

/-! ## Renaming handles -/

def Entry.rename (f : Handle → Handle) : Entry → Entry
  | .child h => .child (f h)
  | e => e

def Cell.rename (f : Handle → Handle) (c : Cell) : Cell :=
  { c with entry := c.entry.rename f }

def Node.rename (f : Handle → Handle) (n : Node) : Node where
  height := n.height
  parent := f n.parent
  right := f n.right
  cells := n.cells.map (Cell.rename f)
  length_le := by simpa using n.length_le

def Payload.rename (f : Handle → Handle) : Payload → Payload
  | .entry e => .entry (e.rename f)
  | p => p

def Edit.rename (f : Handle → Handle) (e : Edit) : Edit :=
  { e with payload := e.payload.rename f, target := f e.target }

section Rename

variable {f g : Handle → Handle} {n : Node}

@[simp] theorem Entry.child?_rename (e : Entry) :
    (e.rename f).child? = e.child?.map f := by
  cases e <;> rfl

@[simp] theorem Cell.key_rename (c : Cell) : (c.rename f).key = c.key := rfl

theorem childrenOf_rename (cells : List Cell) :
    childrenOf (cells.map (Cell.rename f)) = (childrenOf cells).map f := by
  rw [childrenOf, childrenOf, List.filterMap_map, List.map_filterMap]
  exact List.filterMap_congr fun c _ => c.entry.child?_rename

@[simp] theorem Node.keys_rename : (n.rename f).keys = n.keys := by
  simp [keys, rename]

@[simp] theorem Node.firstKey_rename : (n.rename f).firstKey = n.firstKey := by
  simp [firstKey]

@[simp] theorem Node.size_rename : (n.rename f).size = n.size := by
  simp [size, rename]

theorem Node.firstChild_rename :
    (n.rename f).cells.head?.bind (·.entry.child?) =
      (n.cells.head?.bind (·.entry.child?)).map f := by
  cases hc : n.cells <;> simp [rename, hc, Cell.rename]

theorem map_rename_congr {cells : List Cell}
    (h : ∀ c ∈ childrenOf cells, f c = g c) :
    cells.map (Cell.rename f) = cells.map (Cell.rename g) := by
  refine List.map_congr_left fun c hc => ?_
  rcases c with ⟨key, _ | v | k⟩
  · rfl
  · rfl
  · have hk : k ∈ childrenOf cells := mem_childrenOf hc
    simp only [Cell.rename, Entry.rename, h k hk]

theorem map_rename_id (cells : List Cell) :
    cells.map (Cell.rename id) = cells := by
  refine (List.map_congr_left fun c _ => ?_).trans (List.map_id _)
  rcases c with ⟨key, _ | v | k⟩ <;> rfl

theorem Node.rename_id (n : Node) : n.rename id = n := by
  cases n
  simp [rename, map_rename_id]

theorem Edit.rename_id (e : Edit) : e.rename id = e := by
  rcases e with ⟨key, (_ | v | k) | _ | _, target, flags⟩ <;> rfl

theorem Node.eq_rename {m : Node} (hh : m.height = n.height)
    (hp : m.parent = f n.parent) (hr : m.right = f n.right)
    (hc : m.cells = n.cells.map (Cell.rename f)) : m = n.rename f := by
  cases m
  simp_all [rename]

theorem Node.checkOrder_alike (n : Node) (access : Access) (h k : Handle) :
    Alike id (n.checkOrder access h) ((n.rename f).checkOrder access k) := by
  rw [checkOrder, checkOrder, unsortedAt?, unsortedAt?, keys_rename]
  cases firstDescent? n.keys <;> trivial

end Rename

/-! ## Renamed stores and trees -/

namespace Store

/-- The second store is the first with its slots renamed. -/
structure Renamed (ρ : Equiv.Perm Handle) (s s' : Store) : Prop where
  unused : ∀ k, s.contains k = false → ρ k = k
  capacity_eq : s'.capacity = s.capacity
  allocated_eq : s'.allocated = s.allocated
  node_eq : ∀ k, s'.node (ρ k) = (s.node k).rename ρ

namespace Renamed

variable {ρ : Equiv.Perm Handle} {s s' : Store} (h : s.Renamed ρ s')
include h

theorem null_eq : ρ .null = .null := h.unused _ rfl

theorem eq_null_iff {k : Handle} : ρ k = .null ↔ k = .null :=
  ⟨fun hk => ρ.injective (hk.trans h.null_eq.symm), fun hk => hk ▸ h.null_eq⟩

theorem isNull_eq (k : Handle) : (ρ k).isNull = k.isNull := by
  rw [Bool.eq_iff_iff, Handle.isNull_iff, Handle.isNull_iff, h.eq_null_iff]

theorem contains_eq (k : Handle) : s'.contains (ρ k) = s.contains k := by
  rw [contains_eq_of_allocated_eq h.allocated_eq]
  cases hk : s.contains k with
  | false => rw [h.unused k hk, hk]
  | true =>
      by_contra hc
      have hfix := h.unused (ρ k) (Bool.eq_false_iff.mpr hc)
      rw [ρ.injective hfix] at hc
      exact hc hk

theorem get?_eq (k : Handle) :
    s'.get? (ρ k) = (s.get? k).map (Node.rename ρ) := by
  cases hk : s.contains k with
  | true =>
      rw [get?_eq_some_node hk, get?_eq_some_node ((h.contains_eq k).trans hk),
        h.node_eq]
      rfl
  | false =>
      have hnone : ∀ {s : Store} {k : Handle}, s.contains k = false →
          s.get? k = none := by
        intro s k hk
        rw [← Option.not_isSome_iff_eq_none, Option.isSome_iff_exists,
          ← contains_iff, hk]
        decide
      rw [hnone hk, hnone ((h.contains_eq k).trans hk)]
      rfl

theorem links_eq (row : List Handle) :
    s'.links (row.map ρ) = (s.links row).map (Cell.rename ρ) := by
  rw [links, links, List.map_map, List.map_map]
  refine List.map_congr_left fun k _ => ?_
  show (⟨(s'.node (ρ k)).firstKey, _⟩ : Cell) = _
  rw [h.node_eq, Node.firstKey_rename]
  rfl

theorem read_alike (k : Handle) :
    Alike (Node.rename ρ) (s.read k) (s'.read (ρ k)) := by
  rw [read, read, fetch, fetch, h.get?_eq]
  cases s.get? k with
  | none => trivial
  | some n => exact (n.checkOrder_alike _ _ _).bind fun _ _ => rfl

theorem ofLink_eq (level : List Handle) (k : Handle) :
    Position.ofLink (level.map ρ) (ρ k) = Position.ofLink level k := by
  have hidx : (level.map ρ).idxOf? (ρ k) = level.idxOf? k := by
    rw [List.idxOf?, List.idxOf?, List.findIdx?_map]
    congr 1
    funext x
    exact Bool.eq_iff_iff.mpr (by simp)
  rw [Position.ofLink, Position.ofLink, h.isNull_eq, hidx]

/-- A node over a level of the tree, or a node without children, has the same
shape: its links lead to the same positions, as renaming keeps apart what is
apart. -/
theorem nodeShape_eq {below : Option (List Handle)} {n : Node}
    (hn : below = none → n.children = []) (above : List Handle) :
    NodeShape.of (below.map (List.map ρ)) (above.map ρ) (n.rename ρ) =
      NodeShape.of below above n := by
  have hitem : ∀ c ∈ n.cells,
      Item.of (below.map (List.map ρ)) (c.entry.rename ρ) =
        Item.of below c.entry := by
    intro c hc
    cases he : c.entry with
    | null => cases below <;> rfl
    | value v => cases below <;> rfl
    | child k =>
        cases below with
        | none =>
            have hk : k ∈ n.children :=
              List.mem_filterMap.mpr ⟨c, hc, by rw [he]; rfl⟩
            rw [hn rfl] at hk
            cases hk
        | some level => exact congrArg Item.child (h.ofLink_eq level k)
  have hitems : (n.rename ρ).cells.map (fun c =>
      Item.of (below.map (List.map ρ)) c.entry) =
      n.cells.map fun c => Item.of below c.entry := by
    rw [Node.rename, List.map_map]
    exact List.map_congr_left hitem
  rw [NodeShape.of, NodeShape.of, hitems, Node.keys_rename]
  congr 1
  exact h.ofLink_eq above n.parent

theorem shapesAbove_eq : ∀ (levels : List (List (Handle × Node)))
    (below : Option (List Handle)), (below = none →
      ∀ level ∈ levels.head?, ∀ q ∈ level, q.2.children = []) →
    shapesAbove (below.map (List.map ρ))
      (levels.map (List.map fun q => (ρ q.1, q.2.rename ρ))) =
      shapesAbove below levels
  | [], _, _ => rfl
  | level :: rest, below, hn => by
      have habove : ((rest.map (List.map fun q : Handle × Node =>
          (ρ q.1, q.2.rename ρ))).head?.getD []).map (·.1) =
          ((rest.head?.getD []).map (·.1)).map ρ := by
        cases rest <;> simp
      have hlevel : (level.map fun q => (ρ q.1, q.2.rename ρ)).map (·.1) =
          (level.map (·.1)).map ρ := by
        simp
      have hrest := shapesAbove_eq rest (some (level.map (·.1)))
        fun hnone => by cases hnone
      rw [List.map_cons, shapesAbove, shapesAbove, habove, hlevel, ← hrest,
        List.map_map]
      congr 1
      refine List.map_congr_left fun q hq => ?_
      exact h.nodeShape_eq (fun hb => hn hb level rfl q hq) _

theorem chain_alike : ∀ (steps : Nat) (k : Handle),
    Alike (List.map fun q => (ρ q.1, q.2.rename ρ)) (Tree.chain s steps k)
      (Tree.chain s' steps (ρ k))
  | steps, .null => by
      rw [h.null_eq]
      cases steps <;> rfl
  | 0, .slot i => by
      have hne : ρ (.slot i) ≠ .null := by simp [h.eq_null_iff]
      cases hk : ρ (.slot i) with
      | null => exact absurd hk hne
      | slot j => trivial
  | steps + 1, .slot i => by
      have hne : ρ (.slot i) ≠ .null := by simp [h.eq_null_iff]
      rw [Tree.chain.eq_3 s _ steps (by simp), Tree.chain.eq_3 s' _ steps hne]
      refine (h.read_alike _).bind fun n _ => ?_
      exact (chain_alike steps n.right).bind fun rest _ => rfl

end Renamed

end Store

namespace Tree

/-- The second tree is the first with its slots renamed. -/
structure Renamed (ρ : Equiv.Perm Handle) (t t' : Tree) : Prop where
  store : t.store.Renamed ρ t'.store
  root_eq : t'.root = ρ t.root

namespace Renamed

variable {ρ : Equiv.Perm Handle} {t t' : Tree} (h : t.Renamed ρ t')
include h

theorem height_alike : Alike id t.height t'.height := by
  rw [height, height, h.root_eq]
  exact (h.store.read_alike _).bind fun n _ => rfl

theorem leftmostFrom_alike (height : Nat) : ∀ (steps : Nat) (k : Handle),
    Alike ρ (t.leftmostFrom height steps k) (t'.leftmostFrom height steps (ρ k))
  | 0, _ => trivial
  | steps + 1, k => by
      rw [leftmostFrom, leftmostFrom]
      refine (h.store.read_alike k).bind fun n _ => ?_
      show Alike ρ (if n.height = height then _ else _)
        (if n.height = height then _ else _)
      by_cases heq : n.height = height
      · rw [if_pos heq, if_pos heq]
        rfl
      · rw [if_neg heq, if_neg heq]
        have hlow : (n.rename ρ).height = n.height := rfl
        by_cases hlt : n.height < height
        · rw [if_pos hlt, if_pos (hlow ▸ hlt)]
          exact h.height_alike.bind fun _ _ => trivial
        · rw [if_neg hlt, if_neg (hlow ▸ hlt), Node.firstChild_rename]
          cases n.cells.head?.bind (·.entry.child?) with
          | none => trivial
          | some child => exact leftmostFrom_alike height steps child

theorem levelNodes_alike (height : Nat) :
    Alike (List.map fun q => (ρ q.1, q.2.rename ρ)) (t.levelNodes height)
      (t'.levelNodes height) := by
  rw [levelNodes, levelNodes, leftmostAt, leftmostAt, h.store.allocated_eq,
    h.root_eq]
  exact (h.leftmostFrom_alike height _ _).bind fun k _ => h.store.chain_alike _ k

/-! ## What does not name slots -/

theorem level_alike (height : Nat) :
    Alike (List.map ρ) (t.level height) (t'.level height) := by
  rw [level, level]
  refine (h.levelNodes_alike height).bind fun nodes _ => ?_
  show _ = List.map ρ (nodes.map (·.1))
  rw [List.map_map, List.map_map]
  rfl

theorem levelSizes_alike : Alike id t.levelSizes t'.levelSizes := by
  have hsize : ∀ k, Alike id (List.length <$> t.level k)
      (List.length <$> t'.level k) := fun k =>
    (h.level_alike k).map fun row => List.length_map _
  rw [levelSizes, levelSizes]
  refine h.height_alike.bind fun height _ => ?_
  have hall := overHeights_alike hsize (height + 1) 0
  rwa [List.map_id_fun] at hall

theorem items_alike : Alike id t.items t'.items := by
  have hpair : ∀ c : Cell, Alike id c.pair (c.rename ρ).pair := by
    intro c
    rcases c with ⟨key, _ | v | k⟩ <;> trivial
  rw [items, items]
  refine (h.levelNodes_alike 0).bind fun leaves _ => ?_
  rw [List.flatMap_map]
  have hcells : (leaves.flatMap fun q => (q.2.rename ρ).cells) =
      (leaves.flatMap fun q => q.2.cells).map (Cell.rename ρ) := by
    rw [List.map_flatMap]
    rfl
  have hpairs := Alike.mapM hpair (leaves.flatMap fun q => q.2.cells)
  rw [List.map_id_fun, ← hcells] at hpairs
  exact hpairs.bind fun pairs _ => rfl

theorem shape_alike
    (hleaf : ∀ leaves, t.levelNodes 0 = .ok leaves →
      ∀ q ∈ leaves, q.2.children = []) : Alike id t.shape t'.shape := by
  rw [shape, shape]
  refine h.height_alike.bind fun height _ => ?_
  refine (overHeights_alike h.levelNodes_alike _ _).bind fun levels hl => ?_
  show shapesAbove (Option.map (List.map ρ) none) _ = shapesAbove none levels
  refine h.store.shapesAbove_eq levels none fun _ level hlevel q hq => ?_
  rw [overHeights] at hl
  obtain ⟨leaves, hleaves, hl⟩ := bind_eq_ok.mp hl
  obtain ⟨rest, -, hl⟩ := bind_eq_ok.mp hl
  cases hl
  obtain rfl := Option.some.inj hlevel
  exact hleaf _ hleaves q hq

end Renamed

theorem Renamed.refl (t : Tree) : t.Renamed (Equiv.refl Handle) t where
  store :=
    { unused := fun _ _ => rfl
      capacity_eq := rfl
      allocated_eq := rfl
      node_eq := fun k => (t.store.node k).rename_id.symm }
  root_eq := rfl

/-- The trees have as many nodes level by level, of the same keys, items and
places of their parents, in as many slots, and store the same. -/
structure Congruent (t t' : Tree) : Prop where
  levelSizes : ∃ sizes, t.levelSizes = .ok sizes ∧ t'.levelSizes = .ok sizes
  shape : ∃ shape, t.shape = .ok shape ∧ t'.shape = .ok shape
  items : ∃ items, t.items = .ok items ∧ t'.items = .ok items
  allocated_eq : t'.store.allocated = t.store.allocated

/-- Renamed trees are congruent, if they can be walked. -/
theorem Renamed.congruent {ρ : Equiv.Perm Handle} {t t' : Tree}
    (h : t.Renamed ρ t') {row : Nat → List Handle} {height : Nat}
    {items : List Pair} (w : t.Walkable row height)
    (hleaves : t.store.contents (row 0) = leafCells items) :
    t.Congruent t' where
  levelSizes := ⟨_, w.levelSizes_eq, h.levelSizes_alike.eq_ok w.levelSizes_eq⟩
  shape := by
    obtain ⟨shape, hshape⟩ := w.exists_shape
    refine ⟨shape, hshape, (h.shape_alike ?_).eq_ok hshape⟩
    intro leaves hl q hq
    rw [w.levelNodes_eq (Nat.zero_le _)] at hl
    cases hl
    obtain ⟨k, hk, rfl⟩ := List.mem_map.mp hq
    refine List.eq_nil_iff_forall_not_mem.mpr fun c hc => ?_
    have hm := Store.mem_childrenOf_contents.mpr ⟨k, hk, hc⟩
    rw [hleaves, childrenOf_leafCells] at hm
    cases hm
  items := by
    have hi := w.items_eq hleaves
      (hleaves ▸ (w.isRow 0 (Nat.zero_le _)).increasing)
    exact ⟨items, hi, h.items_alike.eq_ok hi⟩
  allocated_eq := h.store.allocated_eq

end Tree

end LevelIndex
