import LevelIndex.Proofs.Batch.Climb
import LevelIndex.Proofs.Extends
import LevelIndex.Proofs.Insert.Level
import LevelIndex.Proofs.Torn

/-!
# Insert batches

`Rising` is the invariant of an insert batch that has reached a level: the tree
is torn there, and merging the edits into the level gives what is due. Above the
root there is no level yet; there the edits are merged into a new root over the
old one.

A level is followed in three steps:

- the edits fall into sites, and merging the runs of these into their nodes
  merges all edits into the level (`Site.flatMap_merged`);
- what the runs come to in any order is said by `Rising.settled`, and above the
  root by `Rising.grown`;
- it keeps the invariant in both cases (`Rising.spread`, `Rising.laid`) and
  takes nothing out of the tree (`Rising.spread_extends`,
  `Rising.laid_extends`). An edit that is staged is aimed at the parent of the
  node that was split; its key falls in the range of that node, and so in that
  of the parent.

`Rising.run_spec` draws the conclusion: the batch ends in an intact tree that
extends the one before and stores what the leaves were to hold, or the store is
full.
-/

namespace LevelIndex

namespace Site

variable {s : Store} {sites : List Site}

/-- Merging runs into their nodes merges all edits into the level, since the
runs are as far apart as the nodes are. -/
theorem flatMap_merged (happ : Apart s sites)
    (hi : Increasing (s.contents (sites.map (·.handle))))
    (ha : Ascending (Edit.keys (edits sites))) :
    sites.flatMap (Insert.merged s) =
      mergeCells (s.contents (sites.map (·.handle)))
        ((edits sites).map Edit.cell) := by
  induction sites with
  | nil => simp
  | cons a sites ih =>
      rw [List.map_cons, Store.contents_cons] at hi
      have hcells := Edit.increasing_cell ha
      rw [edits_cons, List.map_append] at hcells
      have ha' : Ascending (Edit.keys (edits sites)) :=
        ha.sublist (List.Sublist.map _ (List.sublist_append_right _ _))
      have hab := (List.pairwise_cons.mp happ).1
      rw [List.flatMap_cons, ih happ.tail (List.pairwise_append.mp hi).2.1 ha',
        List.map_cons, Store.contents_cons, edits_cons, List.map_append,
        Insert.merged]
      refine (mergeCells_append hi hcells ?_ ?_).symm
      · intro x hx y hy
        obtain ⟨e, he, rfl⟩ := List.mem_map.mp hy
        obtain ⟨b, hb, he⟩ := mem_edits.mp he
        exact hab b hb x.key (List.mem_append_left _ (List.mem_map_of_mem hx))
          e.key (List.mem_append_right _ (List.mem_map_of_mem he))
      · intro x hx y hy
        obtain ⟨e, he, rfl⟩ := List.mem_map.mp hx
        obtain ⟨p, hp, hy⟩ := Store.mem_contents.mp hy
        obtain ⟨b, hb, rfl⟩ := List.mem_map.mp hp
        exact hab b hb e.key (List.mem_append_right _ (List.mem_map_of_mem he))
          y.key (List.mem_append_left _ (List.mem_map_of_mem hy))

end Site

namespace Insert

/-- The only fault of an insert. -/
def Full (s : Store) (f : Fault) : Prop := f = .storeFull s.capacity

theorem full_congr {s s' : Store} (h : s'.capacity = s.capacity) :
    Full s' = Full s := by
  unfold Full
  rw [h]

theorem full_of_short {s : Store} {n : Nat} {f : Fault}
    (h : Short s.capacity n f) : Full s f := h.1

/-- The cells that edits find at the level `gap`: those of the level, or over
the root the link to it. -/
def standing (t : Tree) (row : Nat → List Handle) (height gap : Nat) :
    List Cell :=
  if gap ≤ height then t.store.contents (row gap)
  else [⟨minKey, .child t.root⟩]

/-- An insert batch that has reached the level `gap`. -/
structure Rising (t : Tree) (row : Nat → List Handle) (height gap : Nat)
    (items : List Pair) (edits : List Edit) : Prop
    extends t.Torn row height gap items where
  ascending : Ascending (Edit.keys edits)
  merges : ∀ e ∈ edits, e.Merges
  within : gap ≤ height → t.store.Routed (row gap) edits ∧
    mergeCells (t.store.contents (row gap)) (edits.map Edit.cell) =
      t.store.due row items gap
  above : height < gap → (∀ e ∈ edits, e.target = .null) ∧
    mergeCells [⟨minKey, .child t.root⟩] (edits.map Edit.cell) =
      t.store.due row items gap
  /-- Above the leaves, edits are links of nodes that are new. -/
  absent : gap ≠ 0 → ∀ e ∈ edits, ∀ c ∈ standing t row height gap,
    c.key ≠ e.key
  /-- Edits leave the top level only if it has overflowed a node. -/
  crowded : height < gap → edits ≠ [] →
    Node.capacity < (t.store.contents (row height)).length

/-- A root over an old one, as it is before edits are merged into it. -/
def overRoot (height : Nat) (old : Handle) : Node where
  height := height
  parent := .null
  right := .null
  cells := [⟨minKey, .child old⟩]
  length_le := by simp [Node.capacity]

/-- Over the root stands a new one, from which on the cells are laid out. -/
def Grown (t : Tree) (gap : Nat) (cells : List Cell) (t' : Tree)
    (staged : List Edit) : Prop :=
  ∃ s fresh, Store.Frame t.store s [] [] ∧ t.store.Taken s [t'.root] ∧
    staged = stagedFor t'.store .null fresh ∧
    Laid s t'.store (overRoot gap t.root) t'.root (chunks cells) fresh

theorem grow_cases {t : Tree} (height : Nat) {old : Node}
    (hread : t.store.read t.root = .ok old) (hh : old.height + 1 = height)
    (hlim : old.height < heightLimit)
    (hcap : t.store.capacity ≤ Handle.nullRaw) :
    (∃ s, s.capacity = t.store.capacity ∧ s.allocated = t.store.allocated + 1 ∧
      (∀ k, s.node k = t.store.node k) ∧
        grow t height = .ok (.slot t.store.allocated,
        overRoot height t.root, ⟨s, .slot t.store.allocated⟩)) ∨
    grow t height = .error (.storeFull t.store.capacity) ∧
      t.store.capacity ≤ t.store.allocated := by
  have hgrow : grow t height = t.store.allocate >>= fun r =>
      .ok (r.1, overRoot height t.root, ⟨r.2, r.1⟩) := by
    rw [grow, hread]
    show (nextHeight old.height >>= fun above => require (above = height) _ >>=
      fun _ => _) = _
    rw [nextHeight, if_pos hlim]
    show (require (old.height + 1 = height) _ >>= fun _ => _) = _
    rw [require_pos hh]
    rfl
  rcases Store.allocate_cases hcap with ⟨s, hs, hscap, hall, hnode⟩ | ⟨hfull, hle⟩
  · exact Or.inl ⟨s, hscap, hall, hnode, by rw [hgrow, hs]; rfl⟩
  · exact Or.inr ⟨by rw [hgrow, hfull]; rfl, hle⟩

namespace Rising

variable {t : Tree} {row : Nat → List Handle} {height gap : Nat}
  {items : List Pair} {edits : List Edit}

theorem of_intact {old : List Pair} (i : t.Intact row height old)
    (ha : Ascending (Edit.keys edits)) (hm : ∀ e ∈ edits, e.Merges)
    (hr : t.store.Routed (row 0) edits)
    (hmerge : mergeCells (leafCells old) (edits.map Edit.cell) =
      leafCells items) : Rising t row height 0 items edits :=
  ⟨Tree.Torn.of_intact i items, ha, hm, fun _ => ⟨hr, i.leaves ▸ hmerge⟩,
    fun h => absurd h (Nat.not_lt_zero _), fun h => absurd rfl h,
    fun h => absurd h (Nat.not_lt_zero _)⟩

/-- Merging the edits into what stands there gives what is due, be it a level of
the tree or the link to the root. -/
theorem merge_eq (r : Rising t row height gap items edits) :
    mergeCells (standing t row height gap) (edits.map Edit.cell) =
      t.store.due row items gap := by
  rw [standing]
  split
  · next h => exact (r.within h).2
  · next h => exact (r.above (Nat.lt_of_not_le h)).2

theorem increasing_standing (r : Rising t row height gap items edits) :
    Increasing (standing t row height gap) := by
  rw [standing]
  split
  · next h => exact (r.level gap h).increasing
  · exact List.pairwise_singleton _ _

theorem intact (r : Rising t row height gap items []) :
    t.Intact row height items := by
  refine r.toTorn.intact ?_ ?_
  · intro h
    have hm := (r.within h).2
    rwa [List.map_nil, mergeCells_nil_right] at hm
  · intro h
    obtain rfl : gap = height + 1 := Nat.le_antisymm r.gap_le h
    have hm := (r.above h).2
    rw [List.map_nil, mergeCells_nil_right] at hm
    have hch := congrArg childrenOf hm
    rw [Store.childrenOf_due] at hch
    exact hch.symm

theorem increasing_due (r : Rising t row height gap items edits) :
    Increasing (t.store.due row items gap) := by
  rw [← r.merge_eq]
  exact increasing_mergeCells r.increasing_standing
    (Edit.increasing_cell r.ascending)

theorem exists_sites (r : Rising t row height gap items edits)
    (hg : gap ≤ height) :
    ∃ sites : List Site, t.store.Sited (row gap) edits sites :=
  Store.exists_sites (r.level gap hg).increasing (r.level gap hg).nonempty
    r.ascending (r.within hg).1

theorem clustered (r : Rising t row height gap items edits) :
    Clustered (Edit.targets edits) := by
  by_cases hg : gap ≤ height
  · obtain ⟨sites, hsites⟩ := r.exists_sites hg
    rw [← hsites.edits_eq]
    exact Site.clustered_edits (hsites.row_eq ▸ (r.level gap hg).nodup)
      hsites.aimed
  · intro a b hab
    have hnull : ∀ h ∈ Edit.targets edits, h = .null := by
      intro h hh
      obtain ⟨e, he, rfl⟩ := List.mem_map.mp hh
      exact (r.above (Nat.lt_of_not_le hg)).1 e he
    rw [hnull a (hab.subset (by simp)), hnull b (hab.subset (by simp))]

theorem ready (r : Rising t row height gap items edits) (hg : gap ≤ height)
    {sites : List Site} (h : t.store.Sited (row gap) edits sites) :
    sites.flatMap (merged t.store) = t.store.due row items gap ∧
      Ready t.store gap .null sites := by
  have hl := r.level gap hg
  have hdue : sites.flatMap (merged t.store) = t.store.due row items gap := by
    rw [Site.flatMap_merged h.apart (h.row_eq ▸ hl.increasing)
      (h.edits_eq ▸ r.ascending), h.row_eq, h.edits_eq]
    exact (r.within hg).2
  have hch : childrenOf (sites.flatMap (merged t.store)) =
      Store.beneath row gap := by
    rw [hdue, Store.childrenOf_due]
  refine ⟨hdue, ⟨Nat.le_of_lt r.nameable, fun a ha => hl.live _ (h.mem_row ha),
    fun a ha => hl.height_eq _ (h.mem_row ha),
    fun a ha => hl.nonempty _ (h.mem_row ha),
    fun a ha => hl.increasing_cells (h.mem_row ha), ?_,
    fun a ha e he => r.merges e (h.mem_edits ha he), h.aimed, ?_,
    h.row_eq ▸ hl.nodup, h.row_eq ▸ hl.linked, h.row_eq ▸ hl.half, ?_, ?_, ?_⟩⟩
  · intro a ha
    exact r.ascending.sublist (h.edits_eq ▸ (Site.run_sublist ha).map _)
  · intro a ha hrun c hc
    refine r.owns hg a.handle (h.mem_row ha) c ?_
    rwa [merged, hrun, List.map_nil, mergeCells_nil_right] at hc
  · rw [hch]
    exact fun c hc => r.live_beneath hc
  · rw [hch]
    exact r.nodup_beneath
  · rw [hch, h.row_eq]
    exact fun c hc hm => r.not_mem_beneath hg (by omega) hm hc

section Spread

variable (r : Rising t row height gap items edits) (hg : gap ≤ height)
  {sites : List Site} (hsites : t.store.Sited (row gap) edits sites)
  {t' : Tree} {new : List Handle} {staged : List Edit}
  (hroot : t'.root = t.root)
  (hs : Spread t.store t'.store gap .null sites new staged)
include r hg hsites hs

theorem frame_of_spread :
    Store.Frame t.store t'.store (row gap) (Store.beneath row gap) := by
  have h := hs.frame
  rwa [hsites.row_eq, (r.ready hg hsites).1, Store.childrenOf_due] at h

theorem isLevel_of_spread : t'.store.IsLevel gap new ∧
    t'.store.contents new = t.store.due row items gap := by
  have hcont : t'.store.contents new = t.store.due row items gap :=
    hs.contents_eq.trans (r.ready hg hsites).1
  exact ⟨⟨hs.live, hs.height_eq, hs.linked, hs.nonempty,
    hcont ▸ r.increasing_due, hcont ▸ r.due_first, hs.half⟩, hcont⟩

theorem closed_of_spread (hc : t.store.Closed) : t'.store.Closed := by
  obtain ⟨hnew, hcont⟩ := r.isLevel_of_spread hg hsites hs
  refine hc.of_level hs.frame hnew ?_ ?_ ?_ hs.owns ?_
  · rintro k hk (hold | hunused)
    · exact (hs.kept k hold).1
    · exact hs.taken k hk hunused
  · rw [hs.contents_eq]
    exact fun _ h => h
  · rw [hcont, Store.childrenOf_due]
    exact fun c hm => hs.frame.contains (r.live_beneath hm)
  · intro k hk _
    obtain ⟨a, -, hp⟩ := hs.parent_eq k hk
    exact hp ▸ (hc.parent a.handle).mono hs.frame.allocated

include hroot

omit hsites hs in
/-- The level above, or the link to the root, still has the links of the level
as they were. Merging the new ones into these is what is due there. -/
theorem standing_of_frame (hf : Store.Frame t.store t'.store (row gap)
    (Store.beneath row gap)) :
    standing t' (Function.update row gap new) height (gap + 1) =
      t.store.links (row gap) := by
  rw [standing]
  split
  · next h => exact r.contents_upper hg hf h new
  · next h =>
      have hgh : gap = height := by omega
      have htop := hgh ▸ r.top hg
      obtain ⟨p, rest, hp, hfirst⟩ := (r.level gap hg).exists_cons
      rw [htop] at hp
      obtain ⟨rfl, rfl⟩ := List.cons.inj hp
      rw [htop, Store.links_cons, hfirst, hroot]
      rfl

/-- A level of the tree, once spread, hands the batch on to the level above. -/
theorem spread :
    Rising t' (Function.update row gap new) height (gap + 1) items staged := by
  have hl := r.level gap hg
  have hrow := hsites.row_eq
  have hready := (r.ready hg hsites).2
  have hf := r.frame_of_spread hg hsites hs
  obtain ⟨hnew, hcont⟩ := r.isLevel_of_spread hg hsites hs
  have hperm : (t'.store.links new).Perm
      (t.store.links (row gap) ++ staged.map Edit.cell) := hrow ▸ hs.perm
  have hincr := hnew.increasing_links.sublist hs.sublist
  have hstand : standing t' (Function.update row gap new) height (gap + 1) =
      t.store.links (row gap) := r.standing_of_frame hg hroot hf
  have hlinks : mergeCells (t.store.links (row gap)) (staged.map Edit.cell) =
      t'.store.due (Function.update row gap new) items (gap + 1) := by
    rw [mergeCells_eq_of_perm hl.increasing_links hincr hnew.increasing_links
      hperm, Store.due, Function.update_self]
  exact
    { toTorn := r.toTorn.rewritten hg hf hroot hnew hcont hs.owns
        (hs.head_eq.trans (hrow ▸ rfl))
      ascending := by
        have h := ascending_map_key.mpr hincr
        rwa [Edit.map_key_cell] at h
      merges := fun e he => (hs.staged_spec e he).1
      within := fun h => by
        refine ⟨r.routed_upper hg hf h new fun e he => ?_, ?_⟩
        · obtain ⟨-, a, ha, htarget, hkey⟩ := hs.staged_spec e he
          have hfloor := Site.floor_links hsites.apart hready.increasing
            hsites.aimed hready.nonempty ha hkey
          exact ⟨_, a.handle, hrow ▸ hfloor, htarget⟩
        · rw [← hlinks, r.contents_upper hg hf h]
      above := fun h => by
        have hgh : gap = height := by omega
        have htop := hgh ▸ r.top hg
        constructor
        · intro e he
          obtain ⟨-, a, ha, htarget, -⟩ := hs.staged_spec e he
          have hah := hsites.mem_row ha
          rw [htop, List.mem_singleton] at hah
          rw [htarget, hah, r.parent_root]
        · rw [← hlinks, ← hstand, standing, if_neg (Nat.not_le_of_lt h)]
      absent := fun _ e he c hc => by
        rw [hstand] at hc
        exact hnew.increasing_links.key_ne_of_perm hperm hc
          (List.mem_map_of_mem he)
      crowded := fun h hne => by
        rw [show height = gap by omega, Function.update_self]
        exact hs.split hne }

theorem spread_extends :
    t.Extends row height t' (Function.update row gap new) height := by
  have hrow := hsites.row_eq
  have hf := r.frame_of_spread hg hsites hs
  exact
    { capacity_eq := hf.capacity
      height_le := Nat.le_refl _
      allocated_le := hf.allocated
      kept := fun k hk p hp => by
        by_cases hkg : k = gap
        · subst hkg
          rw [Function.update_self]
          exact hs.kept p (hrow ▸ hp)
        · rw [Function.update_of_ne hkg]
          exact ⟨hp, Node.firstKey_eq_of_cells_eq
            (r.cells_of_frame hg hf hk hkg p hp)⟩
      origin := fun k hk p hp => by
        by_cases hkg : k = gap
        · subst hkg
          rw [Function.update_self] at hp
          exact (hs.origin p hp).imp_left fun h => ⟨hk, hrow ▸ h⟩
        · rw [Function.update_of_ne hkg] at hp
          exact Or.inl ⟨hk, hp⟩
      taken := fun p hlive hunused => by
        refine ⟨gap, hg, ?_⟩
        rw [Function.update_self]
        exact hs.taken p hlive hunused
      longer := fun k hk => by
        by_cases hkg : k = gap
        · subst hkg
          rw [Function.update_self, (r.isLevel_of_spread hg hsites hs).2,
            ← (r.within hg).2]
          exact length_le_length_mergeCells _ _
        · rw [Function.update_of_ne hkg,
            Store.contents_congr (r.cells_of_frame hg hf hk hkg)]
      root_eq := fun _ => hroot
      crowded := fun h => absurd h (Nat.lt_irrefl _)
      closed := r.closed_of_spread hg hsites hs }

end Spread

section Laid

variable (r : Rising t row height gap items edits) (hg : gap = height + 1)
  {s : Store} {t' : Tree} {handle : Handle} {fresh : List Handle}
  (hf : Store.Frame t.store s [] []) (htaken : t.store.Taken s [handle])
  (hroot : t'.root = handle)
  (hl : Laid s t'.store (overRoot gap t.root) handle
    (chunks (t.store.due row items gap)) fresh)
include hf htaken hl

theorem frame_of_laid :
    Store.Frame t.store t'.store [] (Store.beneath row gap) := by
  have h := hf.of_taken htaken hl.frame
  rwa [flatten_chunks, Store.childrenOf_due] at h

include r

omit hf htaken in
theorem isLevel_of_laid : t'.store.IsLevel gap (handle :: fresh) ∧
    t'.store.contents (handle :: fresh) = t.store.due row items gap := by
  have hcont : t'.store.contents (handle :: fresh) =
      t.store.due row items gap := hl.contents_eq
  obtain ⟨e, rest, hfirst⟩ := r.due_first
  exact ⟨⟨hl.live, hl.height_eq, hl.linked,
    fun k hk => hl.nonempty (hfirst ▸ List.cons_ne_nil _ _) hk,
    hcont ▸ r.increasing_due, hcont ▸ r.due_first, fun k hk => hl.half hk⟩,
    hcont⟩

theorem closed_of_laid (hc : t.store.Closed) : t'.store.Closed := by
  have htaken' := htaken.trans hl.taken hf.allocated hl.frame.allocated
  obtain ⟨hnew, hcont⟩ := r.isLevel_of_laid hl
  refine hc.of_level (frame_of_laid hf htaken hl) hnew ?_ ?_ ?_ hl.owns ?_
  · rintro k hk (hw | hunused)
    · cases hw
    · exact (htaken'.mem_iff k).mpr ⟨hk, hunused⟩
  · rw [hcont, Store.childrenOf_due]
    exact fun _ h => h
  · rw [hcont, Store.childrenOf_due]
    exact fun c hc => (hf.trans hl.frame).contains (r.live_beneath hc)
  · exact fun k hk _ => Or.inl (hl.parent_eq k hk)

include hg

theorem laid_extends (hne : edits ≠ []) :
    t.Extends row height t' (Function.update row gap (handle :: fresh))
      gap := by
  have htaken' := htaken.trans hl.taken hf.allocated hl.frame.allocated
  have hframe := frame_of_laid hf htaken hl
  have hclosed := r.closed_of_laid hf htaken hl
  subst hg
  have hcells : ∀ k ≤ height, ∀ p ∈ row k,
      (t'.store.node p).cells = (t.store.node p).cells :=
    fun k hk p hp => hframe.cells ((r.level k hk).live p hp) (by simp)
  have hold : ∀ k ≤ height,
      Function.update row (height + 1) (handle :: fresh) k = row k :=
    fun k hk => Function.update_of_ne (by omega) _ _
  exact
    { capacity_eq := hframe.capacity
      height_le := Nat.le_succ _
      allocated_le := hframe.allocated
      kept := fun k hk p hp => by
        rw [hold k hk]
        exact ⟨hp, Node.firstKey_eq_of_cells_eq (hcells k hk p hp)⟩
      origin := fun k hk p hp => by
        by_cases hkh : k ≤ height
        · rw [hold k hkh] at hp
          exact Or.inl ⟨hkh, hp⟩
        · rw [show k = height + 1 by omega, Function.update_self] at hp
          exact Or.inr (htaken'.unused hp)
      taken := fun p hlive hunused => by
        refine ⟨height + 1, Nat.le_refl _, ?_⟩
        rw [Function.update_self]
        exact (htaken'.mem_iff p).mpr ⟨hlive, hunused⟩
      longer := fun k hk => by
        rw [hold k hk, Store.contents_congr (hcells k hk)]
      root_eq := fun h => absurd h (by omega)
      crowded := fun _ => by
        rw [Nat.add_sub_cancel, hold height (Nat.le_refl _),
          Store.contents_congr (hcells height (Nat.le_refl _))]
        exact r.crowded (Nat.lt_succ_self _) hne
      closed := hclosed }

include hroot

/-- A new root, once laid out, hands the batch on to the level above it: what is
staged are the links of the nodes split off the root. -/
theorem laid :
    Rising t' (Function.update row gap (handle :: fresh)) gap (gap + 1) items
      (stagedFor t'.store .null fresh) := by
  have hframe := frame_of_laid hf htaken hl
  obtain ⟨hnew, hcont⟩ := r.isLevel_of_laid hl
  have hincr := hnew.increasing_links
  have hfirst : (t'.store.node handle).firstKey = minKey := by
    obtain ⟨p, rest, hrow, hfirst⟩ := hnew.exists_cons
    obtain ⟨rfl, rfl⟩ := List.cons.inj hrow
    exact hfirst
  subst hg
  exact
    { toTorn := r.toTorn.raised hframe hnew hcont hl.owns (by simp [hroot])
        (by rw [hroot]; exact hl.parent_eq handle (by simp))
      ascending := by
        rw [← Edit.map_key_cell, map_cell_stagedFor]
        exact ascending_map_key.mpr hincr.tail
      merges := fun e he => by
        obtain ⟨k, -, rfl⟩ := List.mem_map.mp he
        exact Edit.merges_insert _ _ _
      within := fun h => absurd h (by omega)
      above := fun _ => by
        constructor
        · intro e he
          obtain ⟨k, -, rfl⟩ := List.mem_map.mp he
          rfl
        · rw [map_cell_stagedFor, Store.due, Function.update_self, hroot]
          rw [Store.links_cons, hfirst] at hincr ⊢
          exact mergeCells_eq_of_perm (List.pairwise_singleton _ _) hincr.tail
            hincr (List.Perm.refl _)
      absent := fun _ e he c hc => by
        rw [standing, if_neg (by omega)] at hc
        obtain ⟨k, hk, rfl⟩ := List.mem_map.mp he
        rw [Store.links_cons, hfirst] at hincr
        have hlt := (List.pairwise_cons.mp hincr).1 _ (List.mem_map_of_mem hk)
        rw [List.mem_singleton.mp hc]
        exact Int64.ne_of_lt hlt
      crowded := fun _ hne => by
        rw [Function.update_self, hl.contents_eq]
        refine hl.toStands.split ?_
        rintro rfl
        exact hne rfl }

end Laid

/-- What a level of the tree comes to, in any order. It comes short of slots
only if there are fewer than the merged cells of all its sites need. -/
theorem settled (r : Rising t row height gap items edits) (hg : gap ≤ height)
    {sites : List Site} (hsites : t.store.Sited (row gap) edits sites) :
    AnyOrder (rewrite gap) t (Edit.runs edits)
      (Short t.store.capacity (t.store.allocated + need t.store sites))
      fun t' staged => t'.root = t.root ∧ ∃ fresh,
        Settled t.store t'.store sites fresh ∧
        staged = sites.flatMap (notices t.store t'.store fresh) := by
  rw [← hsites.edits_eq,
    Site.runs_edits (hsites.row_eq ▸ (r.level gap hg).nodup) hsites.aimed]
  exact settle_sites (r.ready hg hsites).2

theorem layable (r : Rising t row height gap items edits) {s : Store}
    {handle : Handle} (hf : Store.Frame t.store s [] [])
    (htaken : t.store.Taken s [handle]) :
    Layable s handle (t.store.due row items gap) := by
  refine ⟨⟨?_, htaken.live (by simp), r.increasing_due, ?_, ?_⟩, ?_⟩
  · rw [hf.capacity]
    exact Nat.le_of_lt r.nameable
  · rw [Store.childrenOf_due]
    exact fun c hc => hf.contains (r.live_beneath hc)
  · rw [Store.childrenOf_due]
    intro hm
    have hunused := htaken.unused (List.mem_singleton_self _)
    rw [r.live_beneath hm] at hunused
    cases hunused
  · rw [Store.childrenOf_due]
    exact r.nodup_beneath

/-- Above the root the tree grows: a slot is handed out for a new root, and what
is due there is laid out from it on. All edits are aimed at null, so there is
one run and one order. -/
theorem grown (r : Rising t row height gap items edits) (hg : height < gap)
    (hne : edits ≠ []) :
    AnyOrder (rewrite gap) t (Edit.runs edits) (Short t.store.capacity
      (t.store.allocated + (chunks (t.store.due row items gap)).length))
      (Grown t gap (t.store.due row items gap)) := by
  have hgap : gap = height + 1 := Nat.le_antisymm r.gap_le hg
  obtain ⟨hnull, hmerge⟩ := r.above hg
  have htarget : (edits.head?.map (·.target)).getD .null = .null := by
    obtain ⟨e, rest, rfl⟩ := List.exists_cons_of_ne_nil hne
    exact hnull e (by simp)
  have hread := (r.level height (Nat.le_refl _)).read r.root_mem
  have hheight := r.root_height
  have hlim := r.height_lt_heightLimit
  have hpos := List.length_pos_iff.mpr
    (chunks_ne_nil (t.store.due row items gap))
  rw [Edit.runs_eq_singleton hne hnull]
  refine .of_single ?_
  rcases grow_cases gap hread (by omega) (by omega) (Nat.le_of_lt r.nameable)
    with ⟨s, hcap, hall, hnode, hgrow⟩ | ⟨hfull, hle⟩
  · have hf := Store.frame_of_allocate hcap hall hnode
    have htaken := Store.Taken.of_allocate hall
    have hbase : base t gap ((edits.head?.map (·.target)).getD .null) =
        .ok (.slot t.store.allocated, overRoot gap t.root,
          ⟨s, .slot t.store.allocated⟩) := by
      rw [htarget, base]
      exact hgrow
    have hl := r.layable hf htaken
    have hpour := rewrite_pours hbase rfl r.merges
    rw [show (overRoot gap t.root).cells = [⟨minKey, .child t.root⟩] from rfl,
      hmerge, hcap, hall, Nat.add_assoc, Nat.add_sub_cancel' hpos] at hpour
    refine (hpour hl.toPourable).mono ?_
    rintro step ⟨hroot, fresh, hpoured, hstaged⟩
    refine ⟨s, fresh, hf, hroot ▸ htaken, hstaged, hroot ▸ hpoured.laid ?_⟩
    rw [flatten_chunks]
    exact hl.children_nodup
  · rw [rewrite, htarget, base]
    show Yields _ (grow t gap >>= fun _ => _) _
    rw [hfull]
    exact ⟨rfl, by omega⟩

/-- A level of the tree keeps the invariant, and takes nothing out of the tree.
It holds what was due. For each slot that it takes, a link is staged. -/
theorem pass_within (r : Rising t row height gap items edits)
    (hg : gap ≤ height) {sites : List Site}
    (hsites : t.store.Sited (row gap) edits sites) :
    Yields (Short t.store.capacity (t.store.allocated + need t.store sites))
      (engine.pass gap t edits) fun step => ∃ new,
      step.state.store.contents new = t.store.due row items gap ∧
      Rising step.state (Function.update row gap new) height (gap + 1) items
        step.staged ∧
      t.Extends row height step.state (Function.update row gap new) height ∧
      step.staged.length = need t.store sites ∧
      step.state.store.allocated = t.store.allocated + step.staged.length ∧
      new.length = (row gap).length + step.staged.length := by
  refine Yields.bind (Q := fun step : Step Tree => step.state.root = t.root ∧
    ∃ fresh, Settled t.store step.state.store sites fresh ∧
      step.staged = sites.flatMap (notices t.store step.state.store fresh))
    (r.settled hg hsites).alone fun step ⟨hroot, fresh, h, hstaged⟩ => ?_
  have hs := h.spread (r.ready hg hsites).2
  have hcount := h.length_notices
  rw [← hstaged] at hs hcount
  have hlinks := hs.perm.length_eq
  simp only [Store.links, List.length_append, List.length_map] at hlinks
  refine yields_ok.mpr ⟨_, (r.isLevel_of_spread hg hsites hs).2,
    r.spread hg hsites hroot hs, r.spread_extends hg hsites hroot hs, hcount,
    by rw [h.allocated_eq, hcount], ?_⟩
  rw [hlinks, ← hsites.row_eq, List.length_map]

/-- A level over the root keeps the invariant as well. Its first node is the new
root, and it takes a slot for each of its nodes. -/
theorem pass_above (r : Rising t row height gap items edits)
    (hg : height < gap) (hne : edits ≠ []) :
    Yields (Short t.store.capacity (t.store.allocated +
        (chunks (t.store.due row items gap)).length))
      (engine.pass gap t edits) fun step => ∃ new,
      step.state.store.contents new = t.store.due row items gap ∧
      Rising step.state (Function.update row gap new) gap (gap + 1) items
        step.staged ∧
      t.Extends row height step.state (Function.update row gap new) gap ∧
      new.length = (chunks (t.store.due row items gap)).length ∧
      step.state.store.allocated = t.store.allocated + new.length ∧
      new.length = step.staged.length + 1 := by
  have hgap : gap = height + 1 := Nat.le_antisymm r.gap_le hg
  refine Yields.bind (Q := fun step : Step Tree => Grown t gap
    (t.store.due row items gap) step.state step.staged) (r.grown hg hne).alone
    fun step ⟨s, fresh, hf, htaken, hstaged, hl⟩ => ?_
  have htaken' := htaken.trans hl.taken hf.allocated hl.frame.allocated
  have hr := r.laid hgap hf htaken rfl hl
  rw [← hstaged] at hr
  refine yields_ok.mpr ⟨_, (r.isLevel_of_laid hl).2, hr,
    r.laid_extends hgap hf htaken hl hne, hl.length_eq,
    htaken'.allocated_eq (Nat.le_trans hf.allocated hl.frame.allocated), ?_⟩
  rw [hstaged, stagedFor, List.length_cons, List.length_map]

theorem pass_yields (r : Rising t row height gap items edits)
    (hne : edits ≠ []) :
    Yields (Full t.store) (engine.pass gap t edits) fun step =>
      ∃ row' height', gap ≤ height' ∧
        step.state.store.contents (row' gap) = t.store.due row items gap ∧
        Rising step.state row' height' (gap + 1) items step.staged ∧
        t.Extends row height step.state row' height' := by
  by_cases hg : gap ≤ height
  · obtain ⟨sites, hsites⟩ := r.exists_sites hg
    refine ((r.pass_within hg hsites).weaken fun f => full_of_short).mono ?_
    rintro step ⟨new, hcont, hr, hext, -⟩
    exact ⟨_, _, hg, by rwa [Function.update_self], hr, hext⟩
  · refine ((r.pass_above (Nat.lt_of_not_le hg) hne).weaken
      fun f => full_of_short).mono ?_
    rintro step ⟨new, hcont, hr, hext, -⟩
    exact ⟨_, _, Nat.le_refl _, by rwa [Function.update_self], hr, hext⟩

theorem checkStaged_eq_ok (r : Rising t row height (gap + 1) items edits) :
    engine.checkStaged gap t edits = .ok () := by
  have hlim := r.height_lt_heightLimit
  have hbound : engine.bound t = .ok (height + 1) := by
    show (t.height >>= nextHeight) = _
    rw [r.height_eq]
    show nextHeight height = _
    rw [nextHeight, if_pos (by omega)]
  exact Engine.checkStaged_eq_ok hbound r.gap_le r.ascending

theorem gap_le_heightLimit (r : Rising t row height gap items edits) :
    gap ≤ heightLimit := by
  have h₁ := r.gap_le
  have h₂ := r.height_lt_heightLimit
  omega

/-- **A whole batch.** An insert batch at the leaves ends in an intact tree
that extends the one before, or in a full store. Each level that it passes it
has reached as a batch reaches a level. -/
theorem run_spec (r : Rising t row height 0 items edits) (pool : Pool) :
    (Yields (Full t.store) (engine.run pool t edits).ending fun t' =>
      ∃ row' height', t'.Intact row' height' items ∧
        t.Extends row height t' row' height') ∧
    ∀ l ∈ (engine.run pool t edits).levels, (l.edits ≠ [] ∧ ∃ row' height',
      Rising l.before row' height' l.height items l.edits) ∧
        engine.pass l.height l.before l.edits = .ok l.compacted := by
  unfold Engine.run
  by_cases hne : edits = []
  · subst hne
    exact ⟨⟨row, height, r.intact, .refl t row height⟩, fun l hl => nomatch hl⟩
  · rw [if_neg (by simpa using hne)]
    have hruns : engine.ByRuns rewrite := fun _ _ _ => rfl
    have hall := Engine.climb_yields hruns.divisible (A := Full t.store)
      (P := fun gap t' edits => edits ≠ [] ∧ ∃ row' height',
        Rising t' row' height' gap items edits ∧
        t.Extends row height t' row' height')
      (Q := fun t' => ∃ row' height', t'.Intact row' height' items ∧
        t.Extends row height t' row' height') ?_ ?_ ?_ pool
      (b := .ofEdits edits pool.workers) (Nat.add_zero _)
      ⟨hne, row, height, r, .refl t row height⟩
    · refine ⟨hall.1, fun l hl => ?_⟩
      obtain ⟨⟨hne', row', height', r', -⟩, hpass⟩ := hall.2 l hl
      exact ⟨⟨hne', row', height', r'⟩, hpass⟩
    · rintro gap t' edits ⟨-, row', height', r', -⟩
      exact r'.gap_le_heightLimit
    · rintro gap t' edits ⟨-, row', height', r', -⟩
      exact r'.clustered
    · rintro gap t' edits ⟨hne, row', height', r', hext⟩
      have hfull : Full t'.store = Full t.store := full_congr hext.capacity_eq
      refine (hfull ▸ r'.pass_yields hne).mono ?_
      rintro step ⟨row'', height'', -, -, h, hext'⟩
      split
      · next hstaged =>
          rw [hstaged] at h
          exact ⟨row'', height'', h.intact, hext.trans hext'⟩
      · next hstaged =>
          exact ⟨h.checkStaged_eq_ok, hstaged, row'', height'', h,
            hext.trans hext'⟩

theorem run_yields (r : Rising t row height 0 items edits) (pool : Pool) :
    Yields (Full t.store) (engine.run pool t edits).ending fun t' =>
      ∃ row' height', t'.Intact row' height' items ∧
        t.Extends row height t' row' height' :=
  (r.run_spec pool).1

end Rising

end Insert

end LevelIndex
