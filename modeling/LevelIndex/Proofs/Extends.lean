import LevelIndex.Proofs.Intact
import LevelIndex.Proofs.Store.Closed

/-!
# What a batch does to the nodes of a tree

An insert takes no node out of its tree. `Extends` says so of a tree and what
has become of it, level by level: every node is still on its level and starts at
the key it started at, and what else is on a level stands in a slot handed out
since. No slot handed out since is left unused. So the nodes afterwards are
those before and those handed out since (`Extends.exists_mem_iff`), and a slot
that held no node has not become one (`Extends.not_mem_of_orphan`).

A tree gets a level only because the level below overflows a single node, and no
level ever loses cells. So under the root of a tree that has grown there is a
level with more cells than fit a node (`Extends.crowded`). If the tree has grown
before that and not since, this is the same level, with no fewer cells.

A removal leaves some of the nodes of each level, and the root (`Thins`).

Neither writes to the slots that were in use but held no node of the tree
(`KeepsOrphans`).
-/

namespace LevelIndex

namespace Tree

structure Extends (t : Tree) (row : Nat → List Handle) (height : Nat)
    (t' : Tree) (row' : Nat → List Handle) (height' : Nat) : Prop where
  capacity_eq : t'.store.capacity = t.store.capacity
  height_le : height ≤ height'
  allocated_le : t.store.allocated ≤ t'.store.allocated
  kept : ∀ k ≤ height, ∀ p ∈ row k, p ∈ row' k ∧
    (t'.store.node p).firstKey = (t.store.node p).firstKey
  origin : ∀ k ≤ height', ∀ p ∈ row' k,
    (k ≤ height ∧ p ∈ row k) ∨ t.store.contains p = false
  taken : ∀ p, t'.store.contains p = true → t.store.contains p = false →
    ∃ k ≤ height', p ∈ row' k
  longer : ∀ k ≤ height, (t.store.contents (row k)).length ≤
    (t'.store.contents (row' k)).length
  root_eq : height' = height → t'.root = t.root
  crowded : height < height' →
    Node.capacity < (t'.store.contents (row' (height' - 1))).length
  closed : t.store.Closed → t'.store.Closed

/-- The levels have lost nodes, but neither their number nor the root has
changed, and no slot was handed out. -/
structure Thins (t : Tree) (row : Nat → List Handle) (t' : Tree)
    (row' : Nat → List Handle) : Prop where
  root_eq : t'.root = t.root
  capacity_eq : t'.store.capacity = t.store.capacity
  allocated_eq : t'.store.allocated = t.store.allocated
  subset : ∀ k, row' k ⊆ row k
  closed : t.store.Closed → t'.store.Closed

/-- The slots in use that hold no node of the levels are as they were. -/
def KeepsOrphans (t : Tree) (row : Nat → List Handle) (height : Nat)
    (t' : Tree) : Prop :=
  ∀ p, t.store.contains p = true → (∀ k ≤ height, p ∉ row k) →
    t'.store.node p = t.store.node p

theorem KeepsOrphans.frame {t t' t'' : Tree} {row : Nat → List Handle}
    {height : Nat} {w a : List Handle} (h : t.KeepsOrphans row height t')
    (hall : t.store.allocated ≤ t'.store.allocated)
    (f : Store.Frame t'.store t''.store w a)
    (hoff : ∀ p, t.store.contains p = true → (∀ k ≤ height, p ∉ row k) →
      p ∉ w ∧ p ∉ a) : t.KeepsOrphans row height t'' := by
  intro p hlive hp
  obtain ⟨hw, ha⟩ := hoff p hlive hp
  rw [f.node (Store.contains_of_allocated_le hall hlive) hw ha, h p hlive hp]

namespace Extends

variable {t t' t'' : Tree} {row row' row'' : Nat → List Handle}
  {height height' height'' : Nat}

theorem refl (t : Tree) (row : Nat → List Handle) (height : Nat) :
    Extends t row height t row height where
  capacity_eq := rfl
  height_le := Nat.le_refl _
  allocated_le := Nat.le_refl _
  kept _ _ _ hp := ⟨hp, rfl⟩
  origin _ hk _ hp := Or.inl ⟨hk, hp⟩
  taken p hlive hunused := by
    rw [hlive] at hunused
    cases hunused
  longer _ _ := Nat.le_refl _
  root_eq _ := rfl
  crowded h := absurd h (Nat.lt_irrefl _)
  closed := id

theorem trans (h : Extends t row height t' row' height')
    (h' : Extends t' row' height' t'' row'' height'') :
    Extends t row height t'' row'' height'' where
  capacity_eq := h'.capacity_eq.trans h.capacity_eq
  height_le := Nat.le_trans h.height_le h'.height_le
  allocated_le := Nat.le_trans h.allocated_le h'.allocated_le
  kept k hk p hp := by
    obtain ⟨hp', hkey⟩ := h.kept k hk p hp
    obtain ⟨hp'', hkey'⟩ := h'.kept k (Nat.le_trans hk h.height_le) p hp'
    exact ⟨hp'', hkey'.trans hkey⟩
  origin k hk p hp := by
    rcases h'.origin k hk p hp with ⟨hk', hp'⟩ | hunused
    · exact h.origin k hk' p hp'
    · refine Or.inr (Bool.eq_false_iff.mpr fun hlive => ?_)
      rw [Store.contains_of_allocated_le h.allocated_le hlive] at hunused
      cases hunused
  taken p hlive hunused := by
    cases hc : t'.store.contains p with
    | true =>
        obtain ⟨k, hk, hp⟩ := h.taken p hc hunused
        exact ⟨k, Nat.le_trans hk h'.height_le, (h'.kept k hk p hp).1⟩
    | false => exact h'.taken p hlive hc
  longer k hk := Nat.le_trans (h.longer k hk)
    (h'.longer k (Nat.le_trans hk h.height_le))
  root_eq heq := by
    have hle := h.height_le
    have hle' := h'.height_le
    rw [h'.root_eq (by omega), h.root_eq (by omega)]
  crowded hlt := by
    by_cases hlt' : height' < height''
    · exact h'.crowded hlt'
    · have hle' := h'.height_le
      obtain rfl : height'' = height' := by omega
      exact Nat.lt_of_lt_of_le (h.crowded hlt) (h'.longer _ (Nat.sub_le _ _))
  closed := h'.closed ∘ h.closed

theorem not_mem_of_orphan (h : Extends t row height t' row' height')
    {p : Handle} (hlive : t.store.contains p = true)
    (hp : ∀ k ≤ height, p ∉ row k) {k : Nat} (hk : k ≤ height') :
    p ∉ row' k := by
  intro hm
  rcases h.origin k hk p hm with ⟨hk', hold⟩ | hunused
  · exact hp k hk' hold
  · rw [hlive] at hunused
    cases hunused

/-- The nodes afterwards are those before and those handed out since. This is
what the levels are counted by. -/
theorem exists_mem_iff (h : Extends t row height t' row' height')
    (hlive' : ∀ k ≤ height', ∀ p ∈ row' k, t'.store.contains p = true)
    (p : Handle) :
    (∃ k ≤ height', p ∈ row' k) ↔ (∃ k ≤ height, p ∈ row k) ∨
      t'.store.contains p = true ∧ t.store.contains p = false := by
  constructor
  · rintro ⟨k, hk, hp⟩
    rcases h.origin k hk p hp with hold | hunused
    · exact Or.inl ⟨k, hold⟩
    · exact Or.inr ⟨hlive' k hk p hp, hunused⟩
  · rintro (⟨k, hk, hp⟩ | ⟨hlive, hunused⟩)
    · exact ⟨k, Nat.le_trans hk h.height_le, (h.kept k hk p hp).1⟩
    · exact h.taken p hlive hunused

end Extends

namespace Thins

variable {t t' t'' : Tree} {row row' row'' : Nat → List Handle}

theorem refl (t : Tree) (row : Nat → List Handle) : Thins t row t row :=
  ⟨rfl, rfl, rfl, fun _ => List.Subset.refl _, id⟩

theorem trans (h : Thins t row t' row') (h' : Thins t' row' t'' row'') :
    Thins t row t'' row'' where
  root_eq := h'.root_eq.trans h.root_eq
  capacity_eq := h'.capacity_eq.trans h.capacity_eq
  allocated_eq := h'.allocated_eq.trans h.allocated_eq
  subset k := List.Subset.trans (h'.subset k) (h.subset k)
  closed := h'.closed ∘ h.closed

end Thins

theorem closed_fresh {capacity : Nat} (h : 0 < capacity) :
    (fresh capacity h).store.Closed := by
  have hnode : ∀ k, (fresh capacity h).store.node k = sentinelLeaf ∨
      (fresh capacity h).store.node k = .blank := by
    intro k
    cases hk : (fresh capacity h).store.contains k with
    | false => exact Or.inr (Store.node_eq_blank hk)
    | true =>
        cases k with
        | null => cases hk
        | slot i =>
            obtain rfl : i = 0 := by
              simpa [Store.contains, Store.allocated, fresh] using hk
            exact Or.inl rfl
  refine ⟨fun k => ?_, fun k => ?_, fun k c hc => ?_⟩
  · rcases hnode k with hn | hn <;> exact Or.inl (by rw [hn]; rfl)
  · rcases hnode k with hn | hn <;> exact Or.inl (by rw [hn]; rfl)
  · rcases hnode k with hn | hn <;> rw [hn] at hc <;> cases hc

end Tree

end LevelIndex
