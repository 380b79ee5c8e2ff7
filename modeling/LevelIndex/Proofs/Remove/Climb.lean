import LevelIndex.Proofs.Extends
import LevelIndex.Proofs.Remove.Level
import LevelIndex.Proofs.Remove.Rewrite
import LevelIndex.Proofs.Torn
import LevelIndex.Proofs.Walk

/-!
# Removal batches

`Falling` is the invariant of a removal batch that has reached a level: the tree
is torn there, and carrying out the edits on the level gives what is due. The
nodes of the level are rewritten (`Falling.rewritten`), and compaction turns the
result into a level of the tree and the edits into those of the level above
(`Falling.compacted`). As long as the nodes of a level are `Timely`, the edits
of the next are `Paced`, and the other way round (`Told.paced`).

Between the two steps the level is in no order that a tree allows: nodes may be
underfull or empty, and they may start at other keys than their parents have for
them. What is kept then is said by `Ready`, with the old first keys and parents
as functions of the nodes: the level is one chain with its contents in order
(`Falling.underway`), and each node that is not as it should be is flagged by an
edit of its own (`Falling.flagged`).

A removal always succeeds: it takes no slot, no edit leaves through the root,
and every separator that it looks for is there. `Falling.run_spec` says so, and
that the invariant holds at each level on the way.
-/

namespace LevelIndex

namespace Remove

section Told

variable {old : Handle → Key} {parent : Handle → Handle} {row : List Handle}
  {staged : List Edit} {links : List Cell}

/-- What parents store of a row before they are told anything. -/
def oldLinks (old : Handle → Key) (row : List Handle) : List Cell :=
  row.map fun h => ⟨old h, .child h⟩

theorem Told.eq_of_nil (h : Told old parent row [] links) :
    links = oldLinks old row := by
  generalize hs : ([] : List Edit) = staged at h
  induction h with
  | nil => rfl
  | stay _ ih =>
      rw [ih hs]
      rfl
  | rekey => cases hs
  | drop => cases hs

theorem Told.keys_sublist (h : Told old parent row staged links) :
    (Edit.keys staged).Sublist (row.map old) := by
  induction h with
  | nil => exact List.Sublist.slnil
  | stay _ ih => exact ih.cons _
  | rekey _ _ _ ih => exact ih.cons_cons _
  | drop _ ih => exact ih.cons_cons _

theorem Told.spec_of_mem (h : Told old parent row staged links) {e : Edit}
    (he : e ∈ staged) :
    e.Alters ∧ ∃ k ∈ row, e.key = old k ∧ e.target = parent k := by
  induction h with
  | nil => cases he
  | stay _ ih =>
      obtain ⟨ha, k, hk, hke⟩ := ih he
      exact ⟨ha, k, List.mem_cons_of_mem _ hk, hke⟩
  | rekey key hle _ ih =>
      rcases List.mem_cons.mp he with rfl | he
      · exact ⟨Or.inr ⟨key, rfl, hle⟩, _, List.mem_cons_self, rfl, rfl⟩
      · obtain ⟨ha, k, hk, hke⟩ := ih he
        exact ⟨ha, k, List.mem_cons_of_mem _ hk, hke⟩
  | drop _ ih =>
      rcases List.mem_cons.mp he with rfl | he
      · exact ⟨Or.inl rfl, _, List.mem_cons_self, rfl, rfl⟩
      · obtain ⟨ha, k, hk, hke⟩ := ih he
        exact ⟨ha, k, List.mem_cons_of_mem _ hk, hke⟩

theorem above_oldLinks {h : Handle} (ha : Ascending ((h :: row).map old)) :
    ∀ d ∈ oldLinks old row, old h < d.key := by
  intro d hd
  obtain ⟨k, hk, rfl⟩ := List.mem_map.mp hd
  exact List.rel_of_pairwise_cons ha (List.mem_map_of_mem hk)

/-- The parents do as they are told: amended by what was staged, the old links
of the row are the new ones. No edit of a later node concerns the link of the
first, as nodes started at different keys. -/
theorem Told.amend_eq (h : Told old parent row staged links)
    (ha : Ascending (row.map old)) :
    amend staged (oldLinks old row) = links := by
  induction h with
  | nil => rfl
  | @stay h row staged links hrest ih =>
      have hne : ∀ e ∈ staged, e.key ≠ (⟨old h, .child h⟩ : Cell).key := by
        intro e he heq
        obtain ⟨-, k, hk, hek, -⟩ := hrest.spec_of_mem he
        have hlt : old h < old k :=
          List.rel_of_pairwise_cons ha (List.mem_map_of_mem hk)
        rw [← hek, heq] at hlt
        exact Int64.lt_irrefl hlt
      show (⟨old h, .child h⟩ :: oldLinks old row).filterMap
        (amended staged) = _
      rw [List.filterMap_cons_some (amended_of_forall_ne hne)]
      exact congrArg _ (ih ha.tail)
  | @rekey h row staged links key _ hrest ih =>
      have hfirst : amended (.changeKey (old h) key (parent h) :: staged)
          ⟨old h, .child h⟩ = some ⟨key, .child h⟩ := amended_cons_of_eq rfl
      show (⟨old h, .child h⟩ :: oldLinks old row).filterMap _ = _
      rw [List.filterMap_cons_some hfirst]
      have hrest : amend (.changeKey (old h) key (parent h) :: staged)
          (oldLinks old row) =
          amend staged (oldLinks old row) :=
        amend_cons_of_lt fun d hd => above_oldLinks ha d hd
      exact congrArg _ (hrest.trans (ih ha.tail))
  | @drop h row staged links hrest ih =>
      have hfirst : amended (.remove (old h) (parent h) :: staged) ⟨old h,
          .child h⟩ = none :=
        amended_cons_of_eq rfl
      show (⟨old h, .child h⟩ :: oldLinks old row).filterMap _ = _
      rw [List.filterMap_cons_none hfirst]
      have hrest : amend (.remove (old h) (parent h) :: staged)
          (oldLinks old row) =
          amend staged (oldLinks old row) :=
        amend_cons_of_lt fun d hd => above_oldLinks ha d hd
      exact hrest.trans (ih ha.tail)

/-- The parents rename their links within bounds, as the nodes do. Of three
nodes that are left the first starts before the third did, and that is what is
asked of the links. -/
theorem Told.paced {s : Store} {new : List Handle}
    (h : Told old parent row staged (s.links new))
    (ha : Ascending (row.map old)) (ht : Timely s old new) :
    Paced staged (oldLinks old row) := by
  intro x y z hxyz x' y' z' hx hy hz
  have hsub : [x', y', z'].Sublist (s.links new) := by
    rw [← h.amend_eq ha, amend]
    simpa [hx, hy, hz] using hxyz.filterMap (amended staged)
  obtain ⟨l, hl, hmap⟩ := List.sublist_map_iff.mp hsub
  obtain ⟨p, q, k, rfl⟩ := List.length_eq_three.mp
    (by simpa using (congrArg List.length hmap).symm)
  simp only [List.map_cons, List.map_nil, List.cons.injEq] at hmap
  obtain ⟨rfl, -, rfl, -⟩ := hmap
  obtain ⟨j, -, rfl⟩ := List.mem_map.mp (hxyz.subset (by simp) :
    z ∈ oldLinks old row)
  obtain rfl : k = j := Entry.child.inj (entry_of_amended hz)
  exact ht p q k hl

end Told

/-! ## Rewriting the level

The runs of a level go to different nodes and have no key in common. So what
the nodes of the level hold afterwards is what they held, amended by all edits
of the level at once, and no single run is spoken of again. -/

section Sites

variable {s s' : Store} {sites : List Site}

theorem amended_edits (happ : Site.Apart s sites) {a : Site} (ha : a ∈ sites)
    {c : Cell} (hc : c ∈ (s.node a.handle).cells) :
    amended (Site.edits sites) c = amended a.run c := by
  have hck : c.key ∈ a.keys s := List.mem_append_left _ (List.mem_map_of_mem hc)
  obtain ⟨l, m, rfl⟩ := List.append_of_mem ha
  obtain ⟨-, hm, hlm⟩ := List.pairwise_append.mp happ
  have hsplit : Site.edits (l ++ a :: m) = Site.edits l ++
      (a.run ++ Site.edits m) := by
    simp [Site.edits]
  rw [hsplit, amended_append_left, amended_append_right]
  · intro e he heq
    obtain ⟨b, hb, he⟩ := Site.mem_edits.mp he
    have hlt := List.rel_of_pairwise_cons hm hb c.key hck e.key
      (List.mem_append_right _ (List.mem_map_of_mem he))
    exact Int64.lt_irrefl (heq ▸ hlt)
  · intro e he heq
    obtain ⟨b, hb, he⟩ := Site.mem_edits.mp he
    have hlt := hlm b hb a (by simp) e.key
      (List.mem_append_right _ (List.mem_map_of_mem he)) c.key hck
    exact Int64.lt_irrefl (heq ▸ hlt)

/-- Nodes of a level, rewritten, hold their cells amended by all edits of the
level. Those aimed at other nodes have keys that the node does not hold. -/
theorem contents_revised (happ : Site.Apart s sites)
    (hs : ∀ a ∈ sites, s'.node a.handle = revised s a) {row : List Handle}
    (hrow : row ⊆ sites.map (·.handle)) :
    s'.contents row = amend (Site.edits sites) (s.contents row) := by
  rw [Store.contents, Store.contents, amend, List.filterMap_flatMap]
  refine List.flatMap_congr fun p hp => ?_
  obtain ⟨a, ha, rfl⟩ := List.mem_map.mp (hrow hp)
  rw [hs a ha]
  exact (amend_congr fun c hc => amended_edits happ ha hc).symm

/-- A level that does not hold the root, once rewritten, is flagged by what was
staged: a node with nothing to report starts where it did and is half full,
unless it is the last. -/
theorem flagged_notes {root : Handle} : ∀ {sites : List Site},
    (∀ a ∈ sites, s'.node a.handle = revised s a) →
      (∀ a ∈ sites, a.handle ≠ root) →
    (∀ a ∈ sites, (s.node a.handle).cells ≠ []) →
    (∀ p ∈ (sites.map (·.handle)).dropLast, Node.half ≤ (s.node p).size) →
    Flagged s' (fun h => (s.node h).firstKey) (sites.map (·.handle))
      (sites.flatMap (notes root s))
  | [], _, _, _, _ => .nil
  | a :: sites, hs, hroot, hne, hhalf => by
      have hrest := flagged_notes (fun b hb => hs b (List.mem_cons_of_mem _ hb))
        (fun b hb => hroot b (List.mem_cons_of_mem _ hb))
        (fun b hb => hne b (List.mem_cons_of_mem _ hb)) fun p hp => hhalf p (by
          rw [List.map_cons, List.dropLast_cons_of_ne_nil
            (List.ne_nil_of_mem (List.dropLast_subset _ hp))]
          exact List.mem_cons_of_mem _ hp)
      have hnode := hs a (by simp)
      rw [List.map_cons, List.flatMap_cons, notes]
      by_cases hrun : a.run = []
      · have hsame : s'.node a.handle = s.node a.handle := by
          rw [hnode, revised_of_run_eq_nil hrun]
        rw [if_pos hrun]
        refine .calm ⟨hsame ▸ hne a (by simp), by rw [hsame]⟩ ?_ hrest
        intro hsites
        rw [hsame]
        exact hhalf a.handle (by
          rw [List.map_cons, List.dropLast_cons_of_ne_nil hsites]
          exact List.mem_cons_self)
      · rw [if_neg hrun, report, if_neg (hroot a (by simp)), ← hnode]
        let before := s.node a.handle
        let after := s'.node a.handle
        show Flagged s' _ _ ((if (flagsOf before after).isEmpty = true then []
          else [flag s' (fun h => (s.node h).firstKey) a.handle]) ++ _)
        by_cases hflags : (flagsOf before after).isEmpty = true
        · have hnone := Flags.isEmpty_iff.mp hflags
          have hunder : after.underfull = false :=
            congrArg Flags.underflow hnone
          have hchange :
              (after.isEmpty ||
                decide (after.firstKey ≠ before.firstKey)) = false :=
            congrArg Flags.changeKey hnone
          obtain ⟨hempty, hkey⟩ := Bool.or_eq_false_iff.mp hchange
          rw [if_pos hflags]
          refine .calm ⟨?_, ?_⟩ ?_ hrest
          · intro h
            rw [Node.isEmpty_iff.mpr h] at hempty
            cases hempty
          · simpa using hkey
          · intro _
            simpa [Node.underfull] using hunder
        · rw [if_neg hflags]
          exact .flagged (Bool.eq_false_iff.mpr hflags) hrest

theorem flatMap_notes_eq_nil {root : Handle}
    (h : ∀ a ∈ sites, a.handle = root) : sites.flatMap (notes root s) = [] := by
  refine List.flatMap_eq_nil_iff.mpr ?_
  intro a ha
  rw [notes, report, if_pos (h a ha)]
  exact ite_self _

end Sites

theorem mem_children_of_revised {s : Store} {a : Site}
    (ha : ∀ e ∈ a.run, e.Alters) {c : Handle}
    (hc : c ∈ (revised s a).children) : c ∈ (s.node a.handle).children := by
  obtain ⟨d, hd, hdc⟩ := List.mem_filterMap.mp hc
  obtain ⟨d', hd', -, hentry⟩ := exists_of_mem_amend ha hd
  exact List.mem_filterMap.mpr ⟨d', hd', hentry ▸ hdc⟩

namespace Rewritten

variable {t t' : Tree} {sites : List Site}

theorem links_eq (w : Rewritten t t' sites) (k : Handle) :
    (t'.store.node k).height = (t.store.node k).height ∧
      (t'.store.node k).parent = (t.store.node k).parent ∧
      (t'.store.node k).right = (t.store.node k).right := by
  by_cases hk : k ∈ sites.map (·.handle)
  · obtain ⟨a, ha, rfl⟩ := List.mem_map.mp hk
    rw [w.node_eq a ha]
    exact ⟨rfl, rfl, rfl⟩
  · rw [w.other_eq k hk]
    exact ⟨rfl, rfl, rfl⟩

theorem frame {row : List Handle} (w : Rewritten t t' sites)
    (hrow : sites.map (·.handle) = row) :
    Store.Frame t.store t'.store row [] where
  capacity := w.capacity_eq
  allocated := Nat.le_of_eq w.allocated_eq.symm
  body k _ hk := by rw [w.other_eq k (hrow ▸ hk)]
  parent k _ _ := (w.links_eq k).2.1

theorem closed (w : Rewritten t t' sites)
    (ha : ∀ a ∈ sites, ∀ e ∈ a.run, e.Alters) (hc : t.store.Closed) :
    t'.store.Closed := by
  have hle := Nat.le_of_eq w.allocated_eq.symm
  refine ⟨fun k => ?_, fun k => ?_, fun k c hk => ?_⟩
  · rw [(w.links_eq k).2.1]
    exact (hc.parent k).mono hle
  · rw [(w.links_eq k).2.2]
    exact (hc.right k).mono hle
  · refine Store.contains_of_allocated_le hle (hc.children k c ?_)
    by_cases hmem : k ∈ sites.map (·.handle)
    · obtain ⟨a, has, rfl⟩ := List.mem_map.mp hmem
      rw [w.node_eq a has] at hk
      exact mem_children_of_revised (ha a has) hk
    · rwa [w.other_eq k hmem] at hk

end Rewritten

/-- A removal batch that has reached the level `gap`. -/
structure Falling (t : Tree) (row : Nat → List Handle) (height gap : Nat)
    (items : List Pair) (edits : List Edit) : Prop
    extends t.Torn row height gap items where
  within : gap ≤ height
  ascending : Ascending (Edit.keys edits)
  alters : ∀ e ∈ edits, e.Alters
  routed : t.store.Routed (row gap) edits
  present : gap ≠ 0 →
    ∀ e ∈ edits, ∃ c ∈ t.store.contents (row gap), c.key = e.key
  increasing_due : Increasing (t.store.due row items gap)
  amend_eq : amend edits (t.store.contents (row gap)) =
    t.store.due row items gap
  paced : Paced edits (t.store.contents (row gap))

/-- No edit is aimed at the node of a row, nor at the one before it. -/
structure Aside (row : List Handle) (edits : List Edit) (h : Handle) :
    Prop where
  mem : h ∈ row
  untouched : h ∉ Edit.targets edits
  before : ∀ p, [p, h] <:+: row → p ∉ Edit.targets edits

theorem Rewritten.node_eq_of_untouched {t t' : Tree} {sites : List Site}
    {row : List Handle} {edits : List Edit} (w : Rewritten t t' sites)
    (h : t.store.Sited row edits sites) {p : Handle}
    (hp : p ∉ Edit.targets edits) : t'.store.node p = t.store.node p := by
  by_cases hm : p ∈ sites.map (·.handle)
  · obtain ⟨a, ha, rfl⟩ := List.mem_map.mp hm
    rw [w.node_eq a ha]
    refine revised_of_run_eq_nil (h.run_eq_nil ha hp)
  · exact w.other_eq p hm

namespace Falling

variable {t : Tree} {row : Nat → List Handle} {height gap : Nat}
  {items : List Pair} {edits : List Edit}

theorem of_intact {old : List Pair} (i : t.Intact row height old)
    (ha : Ascending (Edit.keys edits)) (hm : ∀ e ∈ edits, e.Alters)
    (hr : t.store.Routed (row 0) edits) (hi : Increasing (leafCells items))
    (hamend : amend edits (leafCells old) = leafCells items)
    (hpaced : Paced edits (leafCells old)) :
    Falling t row height 0 items edits :=
  ⟨Tree.Torn.of_intact i items, Nat.zero_le _, ha, hm, hr,
    fun h => absurd rfl h, hi, i.leaves ▸ hamend, i.leaves ▸ hpaced⟩

theorem intact (r : Falling t row height gap items []) :
    t.Intact row height items :=
  r.toTorn.intact (fun _ => by rw [← r.amend_eq, amend_nil_left])
    fun h => absurd r.within (Nat.not_le_of_lt h)

theorem exists_sites (r : Falling t row height gap items edits) :
    ∃ sites : List Site, t.store.Sited (row gap) edits sites :=
  Store.exists_sites (r.level gap r.within).increasing
    (r.level gap r.within).nonempty r.ascending r.routed

theorem clustered (r : Falling t row height gap items edits) :
    Clustered (Edit.targets edits) := by
  obtain ⟨sites, h⟩ := r.exists_sites
  rw [← h.edits_eq]
  exact Site.clustered_edits (h.row_eq ▸ (r.level gap r.within).nodup) h.aimed

variable {sites : List Site} {t' : Tree}

theorem workable (r : Falling t row height gap items edits)
    (h : t.store.Sited (row gap) edits sites) : Workable t.store gap sites := by
  have hl := r.level gap r.within
  refine ⟨fun a ha => hl.live _ (h.mem_row ha),
    fun a ha => hl.height_eq _ (h.mem_row ha),
    fun a ha => hl.increasing_cells (h.mem_row ha), ?_,
    fun a ha e he => r.alters e (h.mem_edits ha he), ?_, ?_, h.aimed,
    h.row_eq ▸ hl.nodup⟩
  · intro a ha
    exact r.ascending.sublist (h.edits_eq ▸ (Site.run_sublist ha).map _)
  · intro h0 a ha e he
    obtain ⟨c, hc, hck⟩ := r.present h0 e (h.mem_edits ha he)
    obtain ⟨p, hp, hc⟩ := Store.mem_contents.mp hc
    obtain ⟨b, hb, rfl⟩ := List.mem_map.mp (h.row_eq ▸ hp)
    have hab := Site.eq_of_mem_keys h.apart hb ha
      (hck ▸ List.mem_append_left _ (List.mem_map_of_mem hc))
      (List.mem_append_right _ (List.mem_map_of_mem he))
    exact ⟨c, hab ▸ hc, hck⟩
  · intro a ha
    have hi := r.increasing_due
    rw [← r.amend_eq] at hi
    rw [← amend_congr fun c hc => amended_edits h.apart ha hc, h.edits_eq]
    obtain ⟨l, m, hlm⟩ := List.append_of_mem (h.mem_row ha)
    rw [hlm, Store.contents_append, amend_append, Store.contents_cons,
      amend_append] at hi
    exact (List.pairwise_append.mp (List.pairwise_append.mp hi).2.1).1

theorem contents_rewritten (r : Falling t row height gap items edits)
    (h : t.store.Sited (row gap) edits sites) (w : Rewritten t t' sites) :
    t'.store.contents (row gap) = t.store.due row items gap := by
  rw [contents_revised h.apart w.node_eq (h.row_eq ▸ List.Subset.refl _),
    h.edits_eq, r.amend_eq]

theorem underway (r : Falling t row height gap items edits)
    (h : t.store.Sited (row gap) edits sites) (w : Rewritten t t' sites) :
    Underway t'.store gap [] (row gap) := by
  have hl := r.level gap r.within
  have hcont := r.contents_rewritten h w
  have hlive : ∀ k, t'.store.contains k = t.store.contains k := by
    intro k
    exact Store.contains_eq_of_allocated_eq w.allocated_eq
  refine ⟨fun p hp => (hlive p).trans (hl.live p hp), ?_, hl.nodup,
    (Store.linked_congr fun k _ => (w.links_eq k).2.2).mpr hl.linked, ?_, ?_,
    by simp, fun _ => by simp, by simp, ?_, ?_, ?_⟩
  · intro p hp
    rw [(w.links_eq p).1, hl.height_eq p hp]
  · rw [List.nil_append, hcont]
    exact r.increasing_due
  · intro p hp c hc
    obtain ⟨a, ha, rfl⟩ :=
      List.mem_map.mp (h.row_eq ▸ (show p ∈ row gap from hp))
    rw [w.node_eq a ha] at hc
    rw [(w.links_eq c).2.1]
    exact r.owns r.within a.handle hp c (mem_children_of_revised
      (fun e he => r.alters e (h.mem_edits ha he)) hc)
  · rw [List.nil_append, hcont, Store.childrenOf_due]
    exact fun c hc => (hlive c).trans (r.live_beneath hc)
  · rw [List.nil_append, hcont, Store.childrenOf_due]
    exact r.nodup_beneath
  · rw [List.nil_append, hcont, Store.childrenOf_due]
    exact fun c hc hm => r.not_mem_beneath r.within (by omega) hm hc

theorem known (r : Falling t row height gap items edits)
    (h : t.store.Sited (row gap) edits sites) (w : Rewritten t t' sites) :
    Known t'.store (fun k => (t.store.node k).firstKey)
      (fun k => (t.store.node k).parent)
      (row gap) := by
  have hl := r.level gap r.within
  refine ⟨fun p _ => (w.links_eq p).2.1, ?_, ?_, ?_⟩
  · intro p hp c hc
    obtain ⟨a, ha, rfl⟩ := List.mem_map.mp (h.row_eq ▸ hp)
    rw [w.node_eq a ha] at hc
    obtain ⟨d, hd, hle, -⟩ :=
      exists_of_mem_amend (fun e he => r.alters e (h.mem_edits ha he)) hc
    exact Int64.le_trans (Node.firstKey_le (hl.increasing_cells hp) hd) hle
  · have hi := ascending_map_key.mpr hl.increasing_links
    rw [Store.links, List.map_map] at hi
    exact hi
  · intro front p hp x y z hxyz
    have hfront : front.Sublist (row gap) :=
      (List.sublist_append_left front [p]).trans hp
    rw [contents_revised h.apart w.node_eq (h.row_eq ▸ hfront.subset),
      h.edits_eq] at hxyz
    obtain ⟨d, hd, hlt⟩ :=
      (r.paced.sublist (Store.contents_sublist hfront)).exists_of_amend hxyz
    refine Int64.lt_trans hlt ?_
    have hinc := hl.increasing.sublist (Store.contents_sublist hp)
    rw [Store.contents_append] at hinc
    obtain ⟨c, hc, hck⟩ := Node.exists_mem_key_eq_firstKey
      (hl.nonempty p (hp.subset (by simp)))
    rw [← hck]
    exact (List.pairwise_append.mp hinc).2.2 d hd c (by simpa using hc)

theorem kept (r : Falling t row height gap items edits)
    (h : t.store.Sited (row gap) edits sites) (w : Rewritten t t' sites) :
    Kept gap ⟨t', none⟩ [] (row gap) := by
  have hu := r.underway h w
  obtain ⟨p, rest, hp, -⟩ := (r.level gap r.within).exists_cons
  have hhead : Tree.rowHead row gap = p := by simp [Tree.rowHead, hp]
  have hmem : p ∈ [] ++ row gap := by simp [hp]
  have htop : Tree.rowHead row height = t'.root := by
    simp [Tree.rowHead, r.top r.within, w.root_eq]
  have hpath := (r.firstPath (Nat.le_refl gap)).congr
    (fun _ => (w.frame h.row_eq).contains) (fun k hk hkh => ?_)
    (hhead ▸ Store.increasing_cells hu.increasing hmem)
    (hhead ▸ hu.height_eq p hmem)
  · refine ⟨fun q hq => by simp at hq, fun _ => ⟨p, ?_, by simp [hp]⟩⟩
    rw [← hhead]
    exact hpath.leftmostAt_eq r.within htop (w.allocated_eq ▸ r.height_lt)
  · obtain ⟨q, upper, hq, -⟩ := (r.level k hkh).exists_cons
    refine congrArg Node.body (w.other_eq _ ?_)
    rw [h.row_eq, Tree.rowHead, hq]
    exact r.not_mem_of_ne hkh r.within (by omega) (by simp [hq])

theorem notes_top (r : Falling t row height gap items edits)
    (h : t.store.Sited (row gap) edits sites) (hg : gap = height) :
    sites.flatMap (notes t.root t.store) = [] := by
  have htop : row gap = [t.root] := hg ▸ r.top r.within
  exact flatMap_notes_eq_nil fun a ha => List.mem_singleton.mp
    (htop ▸ h.mem_row ha)

/-- What is told to the compaction flags the level. The root is never
flagged, and it has no need to be: it still starts at the smallest key. -/
theorem flagged (r : Falling t row height gap items edits)
    (h : t.store.Sited (row gap) edits sites) (w : Rewritten t t' sites) :
    Flagged t'.store (fun k => (t.store.node k).firstKey) (row gap)
      (sites.flatMap (notes t.root t.store)) := by
  have hl := r.level gap r.within
  by_cases hg : gap = height
  · have htop : row gap = [t.root] := hg ▸ r.top r.within
    obtain ⟨e, rest, hdue⟩ := r.due_first
    have hcells : (t'.store.node t.root).cells = ⟨minKey, e⟩ :: rest := by
      have hcont := r.contents_rewritten h w
      rw [htop, hdue] at hcont
      simpa [Store.contents] using hcont
    obtain ⟨p, upper, hp, hfirst⟩ := hl.exists_cons
    obtain rfl : t.root = p := (List.cons.inj (htop ▸ hp)).1
    rw [r.notes_top h hg, htop]
    refine .calm ⟨by simp [hcells], ?_⟩ (fun h => absurd rfl h) .nil
    rw [Node.firstKey, Node.keys, hcells, hfirst]
    rfl
  · rw [← h.row_eq]
    refine flagged_notes w.node_eq ?_
      (fun a ha => hl.nonempty _ (h.mem_row ha)) (h.row_eq ▸ hl.half)
    intro a ha hroot
    exact r.not_mem_of_ne (Nat.le_refl _) r.within (Ne.symm hg) r.root_mem
      (hroot ▸ h.mem_row ha)

/-- Compaction can start on the rewritten level. Nothing is done yet, and the
whole level is the rest. -/
theorem ready (r : Falling t row height gap items edits)
    (h : t.store.Sited (row gap) edits sites) (w : Rewritten t t' sites) :
    Ready gap (fun k => (t.store.node k).firstKey)
      (fun k => (t.store.node k).parent) ⟨t', none⟩ [] (row gap)
      (sites.flatMap (notes t.root t.store)) where
  underway := r.underway h w
  flagged := r.flagged h w
  known := r.known h w
  kept := r.kept h w
  stored := by
    obtain ⟨e, rest, hdue⟩ := r.due_first
    rw [List.nil_append, r.contents_rewritten h w, hdue]
    exact List.cons_ne_nil _ _

/-- Compaction has no need to touch a node that the edits leave aside: neither
the node nor the one before it has lost cells. -/
theorem ample (r : Falling t row height gap items edits)
    (h : t.store.Sited (row gap) edits sites) (w : Rewritten t t' sites)
    {p : Handle} (ha : Aside (row gap) edits p) :
    Ample t'.store (row gap) p := by
  have hl := r.level gap r.within
  have hp := w.node_eq_of_untouched h ha.untouched
  refine ⟨ha.mem, hp ▸ hl.nonempty p ha.mem, fun hm => hp ▸ hl.half p hm, ?_⟩
  intro q hq
  rw [w.node_eq_of_untouched h (ha.before q hq)]
  refine hl.half q ?_
  obtain ⟨l, m, hlm⟩ := hq
  simp [← hlm]

section Compacted

variable {t'' : Tree} {new : List Handle} {staged : List Edit}
  (r : Falling t row height gap items edits)
  (h : t.store.Sited (row gap) edits sites) (w : Rewritten t t' sites)
  (hroot : t''.root = t'.root)
  (c : Compacted t'.store t''.store gap (fun k => (t.store.node k).firstKey)
  (fun k => (t.store.node k).parent) [] (row gap) new staged)
include r h w c

theorem frame_compacted :
    Store.Frame t.store t''.store (row gap) (Store.beneath row gap) := by
  have hf := (w.frame h.row_eq).trans c.frame
  rw [r.contents_rewritten h w, Store.childrenOf_due] at hf
  exact hf.mono (by simpa using c.subset) (by simp)

/-- The nodes that are left make up the level, which holds what is due. -/
theorem isLevel_compacted : t''.store.IsLevel gap new ∧
    t''.store.contents new = t.store.due row items gap := by
  have hu : Underway t''.store gap new [] := c.underway
  have hcont : t''.store.contents new = t.store.due row items gap :=
    c.contents_eq.trans (r.contents_rewritten h w)
  have hrow : new ++ [] = new := List.append_nil new
  refine ⟨⟨fun k hk => hu.live k (hrow.symm ▸ hk),
    fun k hk => hu.height_eq k (hrow.symm ▸ hk), hrow ▸ hu.linked, hu.nonempty,
    hcont ▸ r.increasing_due, hcont ▸ r.due_first, hu.half_dropLast⟩, hcont⟩

theorem closed_compacted (hc : t.store.Closed) : t''.store.Closed := by
  obtain ⟨hnew, -⟩ := r.isLevel_compacted h w c
  have hu : Underway t''.store gap new [] := c.underway
  have hcont : t''.store.contents new = t'.store.contents (row gap) :=
    c.contents_eq
  refine (w.closed (fun a ha e he => r.alters e (h.mem_edits ha he))
    hc).of_level c.frame hnew ?_ ?_ ?_
    (fun p hp => hu.owns p (List.mem_append_left _ hp)) ?_
  · rintro k hk (hk' | hunused)
    · exact hk'
    · rw [← Store.contains_eq_of_allocated_eq c.allocated_eq, hk] at hunused
      cases hunused
  · rw [hcont]
    exact fun _ h => h
  · intro p hp
    refine hu.children_live p ?_
    rwa [List.append_nil]
  · intro k hk hunused
    rw [← Store.contains_eq_of_allocated_eq c.allocated_eq,
      hnew.live k hk] at hunused
    cases hunused

include hroot

theorem thins_compacted : t.Thins row t'' (Function.update row gap new) where
  root_eq := hroot.trans w.root_eq
  capacity_eq := c.frame.capacity.trans w.capacity_eq
  allocated_eq := c.allocated_eq.trans w.allocated_eq
  subset k := by
    by_cases hk : k = gap
    · rw [hk, Function.update_self]
      exact c.subset
    · rw [Function.update_of_ne hk]
      exact List.Subset.refl _
  closed := r.closed_compacted h w c

theorem torn_compacted :
    t''.Torn (Function.update row gap new) height (gap + 1) items := by
  obtain ⟨hnew, hcont⟩ := r.isLevel_compacted h w c
  have hu : Underway t''.store gap new [] := c.underway
  exact r.toTorn.rewritten r.within (r.frame_compacted h w c)
    (hroot.trans w.root_eq) hnew hcont
    (fun p hp => hu.owns p (List.mem_append_left _ hp)) c.head_eq

/-- Below the root, the edits for the level above are as they have to be: aimed
at the owners of the nodes, in key order, and paced. -/
theorem compacted (hg : gap < height) :
    Falling t'' (Function.update row gap new) height (gap + 1)
      items staged := by
  have hl := r.level gap r.within
  have hf := r.frame_compacted h w c
  have hkeys : Ascending
      ((row gap).map fun k => (t.store.node k).firstKey) := by
    have hi := ascending_map_key.mpr hl.increasing_links
    rw [Store.links, List.map_map] at hi
    exact hi
  have hdue : t''.store.due (Function.update row gap new) items (gap + 1) =
      t''.store.links new := by
    rw [Store.due, Function.update_self]
  have hlink : ∀ e ∈ staged, ∃ k, e.target = (t.store.node k).parent ∧
      (⟨e.key, .child k⟩ : Cell) ∈ t.store.links (row gap) := by
    intro e he
    obtain ⟨-, k, hk, hkey, htarget⟩ := c.told.spec_of_mem he
    exact ⟨k, htarget, hkey ▸ List.mem_map_of_mem hk⟩
  exact
    { toTorn := r.torn_compacted h w hroot c
      within := hg
      ascending := hkeys.sublist c.told.keys_sublist
      alters := fun e he => (c.told.spec_of_mem he).1
      routed := r.routed_upper r.within hf hg new fun e he => by
        obtain ⟨k, htarget, hmem⟩ := hlink e he
        have hfloor := floor_of_mem hl.increasing_links hmem
        exact ⟨e.key, k, hfloor, htarget⟩
      present := fun _ e he => by
        obtain ⟨k, -, hmem⟩ := hlink e he
        rw [r.contents_upper r.within hf hg]
        exact ⟨_, hmem, rfl⟩
      increasing_due := by
        rw [hdue]
        exact (r.isLevel_compacted h w c).1.increasing_links
      amend_eq := by
        rw [r.contents_upper r.within hf hg, hdue]
        exact c.told.amend_eq hkeys
      paced := by
        rw [r.contents_upper r.within hf hg]
        exact c.told.paced hkeys c.timely }

/-- Where nothing is staged the tree is mended. On the top level the root has
stayed the only node. -/
theorem intact_compacted (hstaged : staged = []) :
    t''.Intact (Function.update row gap new) height items := by
  subst hstaged
  by_cases hg : gap < height
  · exact (r.compacted h w hroot c hg).intact
  · obtain rfl : gap = height := Nat.le_antisymm r.within (Nat.le_of_not_lt hg)
    refine (r.torn_compacted h w hroot c).intact
      (fun hle => absurd hle (by omega)) ?_
    intro _
    have hlinks := congrArg childrenOf c.told.eq_of_nil
    rw [oldLinks, Store.childrenOf_links, r.top r.within] at hlinks
    rw [Function.update_self, hlinks, hroot, w.root_eq]
    rfl

end Compacted

/-- What the rewriting of a level comes to, in any order. -/
theorem rewritten (r : Falling t row height gap items edits)
    (h : t.store.Sited (row gap) edits sites) :
    AnyOrder (rewrite gap) t (Edit.runs edits) (fun _ => False)
      fun t' staged => Rewritten t t' sites ∧
        staged = sites.flatMap (notes t.root t.store) := by
  rw [← h.edits_eq,
    Site.runs_edits (h.row_eq ▸ (r.level gap r.within).nodup) h.aimed]
  exact rewrite_sites (r.workable h)

/-- What a level comes to. It holds what was due; below the root the batch has
reached the level above, and from the root nothing is staged. Nodes that were
left aside have stayed, with their cells. -/
theorem pass_spec (r : Falling t row height gap items edits) :
    ∃ step new, engine.pass gap t edits = .ok step ∧
      t.Thins row step.state (Function.update row gap new) ∧
      step.state.store.contents new = t.store.due row items gap ∧
      (gap < height → Falling step.state (Function.update row gap new) height
        (gap + 1) items step.staged) ∧
      (step.staged = [] →
        step.state.Intact (Function.update row gap new) height items) ∧
      (gap = height → step.staged = []) ∧
      Store.Frame t.store step.state.store (row gap)
        (Store.beneath row gap) ∧
      ∀ p, Aside (row gap) edits p → p ∈ new ∧
        (step.state.store.node p).cells = (t.store.node p).cells := by
  obtain ⟨sites, hsites⟩ := r.exists_sites
  obtain ⟨first, hfirst, w, hnotes⟩ := (r.rewritten hsites).alone.exists_ok
  have hready := r.ready hsites w
  rw [← hnotes] at hready
  obtain ⟨step, new, hstep, hroot, c⟩ :=
    Ready.compactFrom_eq_ok first.staged hready
  have hpass : engine.pass gap t edits =
      .ok { step with state := step.state.tree } := by
    show (Step.sequence (rewrite gap) t (Edit.runs edits) >>= fun s =>
      compact s.state gap s.staged) = _
    rw [hfirst, ok_bind, compact, hstep]
    rfl
  refine ⟨_, new, hpass, r.thins_compacted hsites w hroot c,
    (r.isLevel_compacted hsites w c).2, r.compacted hsites w hroot c,
    r.intact_compacted hsites w hroot c, fun hg => ?_,
    r.frame_compacted hsites w c, fun p ha => ?_⟩
  · rw [hnotes, r.notes_top hsites hg, compactFrom] at hstep
    cases hstep
    rfl
  · obtain ⟨hnew, hcells⟩ := c.ample p (r.ample hsites w ha)
    refine ⟨hnew, hcells.trans ?_⟩
    rw [w.node_eq_of_untouched hsites ha.untouched]

theorem pass_eq_ok (r : Falling t row height gap items edits) :
    ∃ step row', engine.pass gap t edits = .ok step ∧
      t.Thins row step.state row' ∧
        if step.staged = [] then step.state.Intact row' height items
        else gap < height ∧ Falling step.state row' height (gap + 1) items
          step.staged := by
  obtain ⟨step, new, hpass, hthin, -, hnext, hend, htop, -⟩ := r.pass_spec
  refine ⟨step, _, hpass, hthin, ?_⟩
  split
  · next hstaged => exact hend hstaged
  · next hstaged =>
      have hg : gap < height :=
        Nat.lt_of_le_of_ne r.within fun hg => hstaged (htop hg)
      exact ⟨hg, hnext hg⟩

theorem checkStaged_eq_ok (r : Falling t row height (gap + 1) items edits) :
    engine.checkStaged gap t edits = .ok () :=
  Engine.checkStaged_eq_ok (show engine.bound t = .ok height from r.height_eq)
    r.within r.ascending

theorem gap_le_heightLimit (r : Falling t row height gap items edits) :
    gap ≤ heightLimit := by
  have h₁ := r.within
  have h₂ := r.height_lt_heightLimit
  omega

/-- **A whole batch.** A removal batch at the leaves ends in an intact tree. It
takes no slot, the root stays, and so do some of the nodes of each level. Each
level that it passes it has reached as a batch reaches a level. -/
theorem run_spec (r : Falling t row height 0 items edits) (pool : Pool) :
    (∃ t' row', (engine.run pool t edits).ending = .ok t' ∧
      t.Thins row t' row' ∧ t'.Intact row' height items) ∧
    ∀ l ∈ (engine.run pool t edits).levels,
      (∃ row', Falling l.before row' height l.height items l.edits) ∧
        engine.pass l.height l.before l.edits = .ok l.compacted := by
  unfold Engine.run
  by_cases hne : edits = []
  · subst hne
    exact ⟨⟨t, row, rfl, .refl t row, r.intact⟩, fun l hl => nomatch hl⟩
  · rw [if_neg (by simpa using hne)]
    have hruns : engine.ByRuns rewrite := fun _ _ _ => rfl
    have hall := Engine.climb_yields hruns.divisible (A := fun _ => False)
      (P := fun gap t' edits => ∃ row', t.Thins row t' row' ∧
        Falling t' row' height gap items edits)
      (Q := fun t' => ∃ row', t.Thins row t' row' ∧
        t'.Intact row' height items) ?_ ?_ ?_ pool
      (b := .ofEdits edits pool.workers) (Nat.add_zero _)
      ⟨row, .refl t row, r⟩
    · obtain ⟨hend, hlevels⟩ := hall
      obtain ⟨t', hend, row', hthin, i⟩ := hend.exists_ok
      refine ⟨⟨t', row', hend, hthin, i⟩, fun l hl => ?_⟩
      obtain ⟨⟨row', -, r'⟩, hpass⟩ := hlevels l hl
      exact ⟨⟨row', r'⟩, hpass⟩
    · rintro gap t' edits ⟨row', -, r'⟩
      exact r'.gap_le_heightLimit
    · rintro gap t' edits ⟨row', -, r'⟩
      exact r'.clustered
    · rintro gap t' edits ⟨row', hthin, r'⟩
      obtain ⟨step, row'', hstep, hthin', hrest⟩ := r'.pass_eq_ok
      refine yields_of_eq_ok hstep ?_
      split at hrest
      · next hstaged =>
          rw [if_pos hstaged]
          exact ⟨row'', hthin.trans hthin', hrest⟩
      · next hstaged =>
          obtain ⟨-, h⟩ := hrest
          rw [if_neg hstaged]
          exact ⟨h.checkStaged_eq_ok, row'', hthin.trans hthin', h⟩

theorem run_eq_ok (r : Falling t row height 0 items edits) (pool : Pool) :
    ∃ t' row', (engine.run pool t edits).ending = .ok t' ∧
      t.Thins row t' row' ∧ t'.Intact row' height items :=
  (r.run_spec pool).1

end Falling

end Remove

end LevelIndex
