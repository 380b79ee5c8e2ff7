import LevelIndex.Proofs.Insert.Level
import LevelIndex.Proofs.Renaming
import Mathlib.Algebra.Group.End
import Mathlib.Data.List.NodupEquivFin

/-!
# Levels that differ in the slots taken

Which slots an insert takes at a level depends on the order of the runs, and
nothing else does. To say so, a level is described by its *plots*: for each, the
cells that are to stand there, the node already there, if there is one, and what
the new nodes are to be like. `Housed` says that the cells of all plots stand in
their nodes and in the slots taken for them.

Two trees of which one is the other renamed stay so, whatever slots are taken in
each for plots that are renamed alike (`Housed.exists_renaming`). The renaming
is extended by the slots taken; it is not changed where there was a node before.
-/

namespace LevelIndex

/-! ## What is made of cells does not depend on handles -/

section Rename

variable {f : Handle → Handle}

theorem mergeCells_rename (old new : List Cell) :
    mergeCells (old.map (Cell.rename f)) (new.map (Cell.rename f)) =
      (mergeCells old new).map (Cell.rename f) := by
  fun_induction mergeCells old new with
  | case1 new => simp
  | case2 old => simp
  | case3 o old n new h ih =>
      rw [List.map_cons, List.map_cons, mergeCells_cons_cons,
        Cell.key_rename, Cell.key_rename, if_pos h, ← List.map_cons, ih,
        List.map_cons]
  | case4 o old n new h h' ih =>
      rw [List.map_cons, List.map_cons, mergeCells_cons_cons,
        Cell.key_rename, Cell.key_rename, if_neg h, if_pos h', ih,
        List.map_cons]
  | case5 o old n new h h' ih =>
      rw [List.map_cons, List.map_cons, mergeCells_cons_cons,
        Cell.key_rename, Cell.key_rename, if_neg h, if_neg h',
        ← List.map_cons, ih, List.map_cons]

theorem chunks_rename (cells : List Cell) :
    chunks (cells.map (Cell.rename f)) =
      (chunks cells).map (List.map (Cell.rename f)) := by
  fun_induction chunks cells with
  | case1 cells h => rw [chunks, if_pos (by simpa using h)]; rfl
  | case2 cells h h' =>
      rw [chunks, if_neg (by simpa using h), if_pos (by simpa using h')]
      simp [List.map_take, List.map_drop]
  | case3 cells h h' ih =>
      rw [chunks, if_neg (by simpa using h), if_neg (by simpa using h'),
        ← List.map_drop, ih, List.map_cons, List.map_take]

end Rename

/-! ## Slots of equal number -/

/-- Lists of the same elements differ by a permutation of these, which leaves
all else in place. -/
theorem exists_map_perm_eq {α : Type} [DecidableEq α] {l m : List α}
    (hl : l.Nodup) (h : l.Perm m) :
    ∃ π : Equiv.Perm α, l.map π = m ∧ ∀ k, k ∉ l → π k = k := by
  have hm : m.Nodup := h.nodup_iff.mp hl
  let e : Equiv.Perm {k // k ∈ l} :=
    (hl.getEquiv l).symm.trans ((finCongr h.length_eq).trans
      ((hm.getEquiv m).trans (Equiv.subtypeEquivRight fun _ => h.mem_iff.symm)))
  refine ⟨Equiv.Perm.ofSubtype e, ?_, fun k hk =>
    Equiv.Perm.ofSubtype_apply_of_not_mem e hk⟩
  refine List.ext_getElem (by simpa using h.length_eq) fun i hi hi' => ?_
  rw [List.length_map] at hi
  rw [List.getElem_map, Equiv.Perm.ofSubtype_apply_of_mem e
    (List.getElem_mem hi)]
  have hidx : l.idxOf l[i] = i := hl.idxOf_getElem i hi
  show m.get ⟨l.idxOf l[i], _⟩ = m.get ⟨i, hi'⟩
  exact congrArg m.get (Fin.ext hidx)

theorem eq_of_flatMap_eq {α β : Type} {f g : α → List β} : ∀ {l : List α},
    (∀ a ∈ l, (f a).length = (g a).length) → l.flatMap f = l.flatMap g →
    ∀ a ∈ l, f a = g a
  | [], _, _, _, ha => by cases ha
  | b :: l, hlen, h, a, ha => by
      rw [List.flatMap_cons, List.flatMap_cons] at h
      obtain ⟨hb, hl⟩ := List.append_inj h (hlen b (by simp))
      rcases List.mem_cons.mp ha with rfl | ha
      · exact hb
      · exact eq_of_flatMap_eq (fun c hc => hlen c (List.mem_cons_of_mem _ hc))
          hl a ha

theorem Store.Linked.right_rename {s s' : Store} {ρ : Handle → Handle}
    {stop : Handle} : ∀ {row : List Handle}, s.Linked stop row →
    s'.Linked (ρ stop) (row.map ρ) →
    ∀ k ∈ row, (s'.node (ρ k)).right = ρ (s.node k).right
  | [], _, _, _, hk => by cases hk
  | p :: row, h, h', k, hk => by
      rcases List.mem_cons.mp hk with rfl | hk
      · rw [h.1, h'.1]
        cases row <;> rfl
      · exact h.2.right_rename h'.2 k hk

namespace Insert

/-- Cells that are to stand in nodes like `like`, and the node already there, if
there is one. -/
structure Plot where
  like : Node
  cells : List Cell
  old : List Handle

namespace Plot

def rename (f : Handle → Handle) (p : Plot) : Plot where
  like := p.like.rename f
  cells := p.cells.map (Cell.rename f)
  old := p.old.map f

theorem rename_id (p : Plot) : p.rename id = p := by
  cases p
  simp [rename, Node.rename_id, map_rename_id]

/-- The plot names no slot that is not in use. -/
structure Known (s : Store) (p : Plot) : Prop where
  parent : s.Knows p.like.parent
  right : s.Knows p.like.right
  children : ∀ c ∈ childrenOf p.cells, s.contains c = true
  old : ∀ k ∈ p.old, s.contains k = true

/-- The nodes of a plot. -/
def row (fresh : Plot → List Handle) (p : Plot) : List Handle :=
  p.old ++ fresh p

/-- What is staged for a plot: the links of all its nodes but the first. -/
def notices (s : Store) (fresh : Plot → List Handle) (p : Plot) : List Edit :=
  stagedFor s p.like.parent (p.row fresh).tail

/-- The slots that plots take. -/
def room (plots : List Plot) : Nat :=
  (plots.map fun p => (chunks p.cells).length - p.old.length).sum

theorem room_rename (f : Handle → Handle) (plots : List Plot) :
    room (plots.map (rename f)) = room plots := by
  simp [room, rename, chunks_rename, Function.comp_def]

end Plot

/-- The cells of all plots stand where they are to stand. -/
structure Housed (s s' : Store) (plots : List Plot)
    (fresh : Plot → List Handle) : Prop where
  frame : Store.Frame s s' (plots.flatMap (·.old))
    (childrenOf (plots.flatMap (·.cells)))
  taken : Store.Taken s s' (plots.flatMap fresh)
  stands : ∀ p ∈ plots, Stands s' p.like (chunks p.cells) (p.row fresh)

theorem stagedFor_rename {ρ : Equiv.Perm Handle} {s s' : Store}
    (h : s.Renamed ρ s') (parent : Handle) (row : List Handle) :
    stagedFor s' (ρ parent) (row.map ρ) =
      (stagedFor s parent row).map (Edit.rename ρ) := by
  rw [stagedFor, stagedFor, List.map_map, List.map_map]
  refine List.map_congr_left fun k _ => ?_
  show Edit.insert (s'.node (ρ k)).firstKey _ _ = _
  rw [h.node_eq, Node.firstKey_rename]
  rfl

namespace Housed

variable {s s' : Store} {plots : List Plot} {fresh : Plot → List Handle}

theorem length_fresh (h : Housed s s' plots fresh) {p : Plot} (hp : p ∈ plots) :
    (fresh p).length = (chunks p.cells).length - p.old.length := by
  rw [← (h.stands p hp).cells_eq, List.length_map, Plot.row,
    List.length_append, Nat.add_sub_cancel_left]

theorem allocated_eq (h : Housed s s' plots fresh) :
    s'.allocated = s.allocated + Plot.room plots := by
  rw [h.taken.allocated_eq h.frame.allocated, List.length_flatMap, Plot.room,
    List.map_congr_left fun p hp => h.length_fresh hp]

theorem room_le (h : Housed s s' plots fresh) :
    ¬ s.capacity < s.allocated + Plot.room plots := by
  rw [← h.allocated_eq, ← h.frame.capacity]
  exact Nat.not_lt.mpr s'.allocated_le

end Housed

theorem eq_of_knows {ρ ρ' : Equiv.Perm Handle} {s s' : Store}
    (h : s.Renamed ρ s') (hold : ∀ k, s.contains k = true → ρ' k = ρ k)
    (hnull : ρ' .null = .null) {k : Handle} (hk : s.Knows k) : ρ' k = ρ k := by
  rcases hk with rfl | hk
  · rw [h.null_eq, hnull]
  · exact hold k hk

/-! ## Two houses for the same plots -/

section Twice

variable {ρ ρ' : Equiv.Perm Handle} {s₁ s₁' s₂ s₂' : Store}
  {plots : List Plot} {fresh₁ fresh₂ : Plot → List Handle}
  (hr : s₁.Renamed ρ s₂) (h₁ : Housed s₁ s₁' plots fresh₁)
  (h₂ : Housed s₂ s₂' (plots.map (Plot.rename ρ)) fresh₂)
include hr h₁ h₂

theorem Housed.allocated_eq_allocated : s₂'.allocated = s₁'.allocated := by
  rw [h₁.allocated_eq, h₂.allocated_eq, hr.allocated_eq, Plot.room_rename]

/-- The renaming of the nodes before, extended by the slots taken. Both sides
take the same slots in all, as these are handed out in order; what differs is
which plot has got which. -/
theorem Housed.exists_perm : ∃ ρ' : Equiv.Perm Handle,
    (∀ k, s₁.contains k = true → ρ' k = ρ k) ∧
    (∀ k, s₁'.contains k = false → ρ' k = k) ∧
    ∀ p ∈ plots, fresh₂ (p.rename ρ) = (fresh₁ p).map ρ' := by
  have htaken₂ := h₂.taken
  rw [List.flatMap_map] at htaken₂
  have hperm : (plots.flatMap fresh₁).Perm
      (plots.flatMap fun p => fresh₂ (p.rename ρ)) := by
    refine (List.perm_ext_iff_of_nodup h₁.taken.nodup htaken₂.nodup).mpr ?_
    intro k
    rw [h₁.taken.mem_iff, htaken₂.mem_iff,
      Store.contains_eq_of_allocated_eq (h₁.allocated_eq_allocated hr h₂),
      Store.contains_eq_of_allocated_eq hr.allocated_eq]
  obtain ⟨π, hπ, hfix⟩ := exists_map_perm_eq h₁.taken.nodup hperm
  have hnew : ∀ k, s₁.contains k = true → k ∉ plots.flatMap fresh₁ := by
    intro k hk hm
    rw [h₁.taken.unused hm] at hk
    cases hk
  have hstay : ∀ k, s₁.contains k = false → (ρ.trans π) k = π k :=
    fun k hk => congrArg π (hr.unused k hk)
  refine ⟨ρ.trans π, fun k hk => ?_, fun k hk => ?_, ?_⟩
  · refine hfix (ρ k) (hnew _ ?_)
    rw [← Store.contains_eq_of_allocated_eq hr.allocated_eq, hr.contains_eq, hk]
  · have hold : s₁.contains k = false := by
      refine Bool.eq_false_iff.mpr fun hold => ?_
      rw [h₁.frame.contains hold] at hk
      cases hk
    rw [hstay k hold]
    refine hfix k fun hm => ?_
    rw [h₁.taken.live hm] at hk
    cases hk
  · refine eq_of_flatMap_eq (fun p hp => ?_) ?_
    · rw [List.length_map, h₁.length_fresh hp,
        h₂.length_fresh (List.mem_map_of_mem hp)]
      simp [Plot.rename, chunks_rename]
    · rw [← hπ, List.map_flatMap]
      refine List.flatMap_congr fun p hp => ?_
      refine List.map_congr_left fun k hk => (hstay k ?_).symm
      exact h₁.taken.unused (List.mem_flatMap.mpr ⟨p, hp, hk⟩)

/-! ### Under a renaming so extended -/

section Extended

variable (hclosed : s₁.Closed) (hknown : ∀ p ∈ plots, p.Known s₁)
  (hold : ∀ k, s₁.contains k = true → ρ' k = ρ k)
  (hunused : ∀ k, s₁'.contains k = false → ρ' k = k)
  (hfresh : ∀ p ∈ plots, fresh₂ (p.rename ρ) = (fresh₁ p).map ρ')
include hold hknown hfresh

omit hr h₁ h₂ in
theorem Plot.row_rename {p : Plot} (hp : p ∈ plots) :
    (p.rename ρ).row fresh₂ = (p.row fresh₁).map ρ' := by
  rw [row, row, hfresh p hp, List.map_append]
  congr 1
  exact List.map_congr_left fun k hk => (hold k ((hknown p hp).old k hk)).symm

omit hr in
theorem Housed.cells_eq {p : Plot} (hp : p ∈ plots) {k : Handle}
    (hk : k ∈ p.row fresh₁) : (s₂'.node (ρ' k)).cells =
      (s₁'.node k).cells.map (Cell.rename ρ') := by
  have hst := h₁.stands p hp
  have hcells := (h₂.stands _ (List.mem_map_of_mem hp)).cells_eq
  rw [Plot.row_rename hknown hold hfresh hp,
    show (p.rename ρ).cells = p.cells.map (Cell.rename ρ) from rfl,
    chunks_rename, ← hst.cells_eq, List.map_map, List.map_map] at hcells
  refine (List.map_inj_left.mp hcells k hk).trans (map_rename_congr ?_)
  intro c hc
  exact (hold c ((hknown p hp).children c (hst.mem_childrenOf hk hc))).symm

include hunused

theorem Housed.standing_eq {p : Plot} (hp : p ∈ plots) {k : Handle}
    (hk : k ∈ p.row fresh₁) : s₂'.node (ρ' k) = (s₁'.node k).rename ρ' := by
  have hst := h₁.stands p hp
  have hst₂ := h₂.stands _ (List.mem_map_of_mem hp)
  have hrow := Plot.row_rename hknown hold hfresh hp
  have hk₂ : ρ' k ∈ (p.rename ρ).row fresh₂ := hrow ▸ List.mem_map_of_mem hk
  have hlinked := hst₂.linked
  rw [hrow, show (p.rename ρ).like.right = ρ p.like.right from rfl,
    ← eq_of_knows hr hold (hunused .null rfl) (hknown p hp).right] at hlinked
  refine Node.eq_rename ?_ ?_ (hst.linked.right_rename hlinked k hk)
    (h₁.cells_eq h₂ hknown hold hfresh hp hk)
  · rw [hst₂.height_eq _ hk₂, hst.height_eq k hk]
    rfl
  · rw [hst₂.parent_eq _ hk₂, hst.parent_eq k hk,
      eq_of_knows hr hold (hunused .null rfl) (hknown p hp).parent]
    rfl

include hclosed

/-- Nodes of other levels are renamed too: they are as they were, unless one
of the nodes that stand has adopted them. -/
theorem Housed.standing_by_eq {k : Handle} (hk : s₁.contains k = true)
    (hrow : ∀ p ∈ plots, k ∉ p.row fresh₁) :
    s₂'.node (ρ' k) = (s₁'.node k).rename ρ' := by
  have hk₂ : s₂.contains (ρ k) = true := (hr.contains_eq k).trans hk
  have hw : k ∉ plots.flatMap (·.old) := fun hm => by
    obtain ⟨p, hp, hm⟩ := List.mem_flatMap.mp hm
    exact hrow p hp (List.mem_append_left _ hm)
  have hw₂ : ρ k ∉ (plots.map (Plot.rename ρ)).flatMap (·.old) := fun hm => by
    obtain ⟨_, hq, hm⟩ := List.mem_flatMap.mp hm
    obtain ⟨p, hp, rfl⟩ := List.mem_map.mp hq
    exact hw (List.mem_flatMap.mpr
      ⟨p, hp, (List.mem_map_of_injective ρ.injective).mp hm⟩)
  have hcells : (plots.map (Plot.rename ρ)).flatMap (·.cells) =
      (plots.flatMap (·.cells)).map (Cell.rename ρ) := by
    rw [List.flatMap_map, List.map_flatMap]
    rfl
  rw [hold k hk]
  refine Node.eq_rename ?_ ?_ ?_ ?_
  · rw [h₂.frame.height hk₂ hw₂, h₁.frame.height hk hw, hr.node_eq]
    rfl
  · by_cases hch : k ∈ childrenOf (plots.flatMap (·.cells))
    · rw [childrenOf_flatMap] at hch
      obtain ⟨p, hp, hch⟩ := List.mem_flatMap.mp hch
      have hst := h₁.stands p hp
      rw [← hst.contents_eq] at hch
      obtain ⟨q, hq, hch⟩ := Store.mem_childrenOf_contents.mp hch
      have hch₂ : ρ' k ∈ (s₂'.node (ρ' q)).children := by
        rw [h₁.standing_eq hr h₂ hknown hold hunused hfresh hp hq,
          Node.children_eq, Node.rename, childrenOf_rename]
        exact List.mem_map_of_mem hch
      rw [← hold k hk, (h₂.stands _ (List.mem_map_of_mem hp)).owns (ρ' q) ?_ _
        hch₂, hst.owns q hq k hch]
      rw [Plot.row_rename hknown hold hfresh hp]
      exact List.mem_map_of_mem hq
    · rw [h₂.frame.parent (ρ k) hk₂ ?_, h₁.frame.parent k hk hch, hr.node_eq,
        eq_of_knows hr hold (hunused .null rfl) (hclosed.parent k)]
      · rfl
      · rw [hcells, childrenOf_rename]
        exact fun hm => hch ((List.mem_map_of_injective ρ.injective).mp hm)
  · rw [h₂.frame.right hk₂ hw₂, h₁.frame.right hk hw, hr.node_eq,
      eq_of_knows hr hold (hunused .null rfl) (hclosed.right k)]
    rfl
  · rw [h₂.frame.cells hk₂ hw₂, h₁.frame.cells hk hw, hr.node_eq]
    exact map_rename_congr fun c hc => (hold c (hclosed.children k c hc)).symm

theorem Housed.renamed : s₁'.Renamed ρ' s₂' where
  unused := hunused
  capacity_eq := by
    rw [h₂.frame.capacity, h₁.frame.capacity, hr.capacity_eq]
  allocated_eq := h₁.allocated_eq_allocated hr h₂
  node_eq k := by
    by_cases hrow : ∃ p ∈ plots, k ∈ p.row fresh₁
    · obtain ⟨p, hp, hk⟩ := hrow
      exact h₁.standing_eq hr h₂ hknown hold hunused hfresh hp hk
    · have hrow : ∀ p ∈ plots, k ∉ p.row fresh₁ :=
        fun p hp hk => hrow ⟨p, hp, hk⟩
      cases hk' : s₁'.contains k with
      | false =>
          have hk₂ : s₂'.contains k = false := by
            rw [Store.contains_eq_of_allocated_eq
              (h₁.allocated_eq_allocated hr h₂), hk']
          rw [hunused k hk', Store.node_eq_blank hk', Store.node_eq_blank hk₂]
          refine Node.eq_rename rfl ?_ ?_ rfl <;>
            exact (hunused .null rfl).symm
      | true =>
          refine h₁.standing_by_eq hr h₂ hclosed hknown hold hunused hfresh ?_
            hrow
          by_contra hk
          obtain ⟨p, hp, hm⟩ := List.mem_flatMap.mp
            ((h₁.taken.mem_iff k).mpr ⟨hk', Bool.eq_false_iff.mpr hk⟩)
          exact hrow p hp (List.mem_append_right _ hm)

end Extended

/-- **The slots taken make no difference.** Two trees that are renamed before a
level are renamed after it, row and staged edits included, and by a renaming
that has only got more to say. -/
theorem Housed.exists_renaming (hclosed : s₁.Closed)
    (hknown : ∀ p ∈ plots, p.Known s₁) : ∃ ρ' : Equiv.Perm Handle,
    (∀ k, s₁.contains k = true → ρ' k = ρ k) ∧ s₁'.Renamed ρ' s₂' ∧
    (plots.map (Plot.rename ρ)).flatMap (Plot.row fresh₂) =
      (plots.flatMap (Plot.row fresh₁)).map ρ' ∧
    (plots.map (Plot.rename ρ)).flatMap (Plot.notices s₂' fresh₂) =
      (plots.flatMap (Plot.notices s₁' fresh₁)).map (Edit.rename ρ') := by
  obtain ⟨ρ', hold, hunused, hfresh⟩ := h₁.exists_perm hr h₂
  have hren := h₁.renamed hr h₂ hclosed hknown hold hunused hfresh
  have hrow : ∀ p ∈ plots, (p.rename ρ).row fresh₂ = (p.row fresh₁).map ρ' :=
    fun p hp => Plot.row_rename hknown hold hfresh hp
  refine ⟨ρ', hold, hren, ?_, ?_⟩
  · rw [List.flatMap_map, List.map_flatMap]
    exact List.flatMap_congr hrow
  · rw [List.flatMap_map, List.map_flatMap]
    refine List.flatMap_congr fun p hp => ?_
    rw [Plot.notices, Plot.notices, hrow p hp, ← List.map_tail,
      ← stagedFor_rename hren, eq_of_knows hr hold (hunused .null rfl) (hknown p hp).parent]
    rfl

end Twice

end Insert

end LevelIndex
