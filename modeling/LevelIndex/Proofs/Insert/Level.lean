import LevelIndex.Proofs.Insert.Lay
import LevelIndex.Proofs.Batch.Crew
import LevelIndex.Proofs.Routing
import Mathlib.Algebra.GroupWithZero.Nat
import Mathlib.Data.List.Nodup
import Mathlib.Data.List.Perm.Basic
import Mathlib.Logic.Function.Basic

/-!
# Inserting into the nodes of a level

The runs of a level go to different nodes, so the order in which they are
carried out does not matter but for which slots they take. `Ready` is what the
sites of a level satisfy before the first run, and `Settled` what the sites that
are done with have become, whatever the order: their chunks stand in their nodes
and in the slots taken for them. A run that is carried out adds its site
(`settle_run`), and leaves those that are done with as they are
(`Settled.cons`).

`Carried` ties this to the log of a level: the sites that are done with are
those of the runs in the log, and those without edits, which have been done with
from the start (`Settled.idle`). It is the invariant that any order of the runs
keeps (`carried_run`, `settle_sites`).

`Spread` describes the level once all its sites are done with: a row of nodes
that holds the merged cells of the sites, in order, and has for links the old
ones and those that were staged (`Settled.spread`). Of a level that is not done
with, `Midway` says as much as holds wherever a crew has come to
(`Midway.of_reaches`).
-/

namespace LevelIndex

namespace Edit

/-- The cell that an edit merges into its target. -/
def cell (e : Edit) : Cell :=
  ⟨e.key, match e.payload with
    | .entry x => x
    | _ => .null⟩

/-- The edit carries an entry. -/
def Merges (e : Edit) : Prop := e.payload = .entry e.cell.entry

@[simp] theorem cell_insert (key : Key) (x : Entry) (target : Handle) :
    (insert key x target).cell = ⟨key, x⟩ := rfl

theorem merges_insert (key : Key) (x : Entry) (target : Handle) :
    (insert key x target).Merges := rfl

@[simp] theorem key_cell (e : Edit) : e.cell.key = e.key := rfl

theorem map_key_cell (edits : List Edit) :
    (edits.map cell).map (·.key) = keys edits := by
  simp [keys]

theorem increasing_cell {edits : List Edit} (h : Ascending (keys edits)) :
    Increasing (edits.map cell) :=
  ascending_map_key.mp (by rwa [map_key_cell])

end Edit

theorem chunks_ne_nil (cells : List Cell) : chunks cells ≠ [] := by
  rw [chunks]
  split
  · exact List.cons_ne_nil _ _
  · split <;> exact List.cons_ne_nil _ _

theorem ne_nil_of_mem_chunks {cells c : List Cell} (hne : cells ≠ [])
    (hc : c ∈ chunks cells) : c ≠ [] := by
  by_cases hlen : cells.length ≤ Node.capacity
  · rw [chunks_of_length_le hlen] at hc
    rwa [List.mem_singleton.mp hc]
  · have h :=
      half_le_of_mem_chunks
      (by simp only [Node.capacity, Node.half] at *; omega) hc
    rintro rfl
    simp [Node.half, Node.capacity] at h

theorem half_le_of_mem_dropLast_chunks {cells c : List Cell}
    (hc : c ∈ (chunks cells).dropLast) : Node.half ≤ c.length := by
  by_cases hlen : cells.length ≤ Node.capacity
  · rw [chunks_of_length_le hlen] at hc
    cases hc
  · exact half_le_of_mem_chunks
      (by simp only [Node.capacity, Node.half] at *; omega)
      (List.dropLast_subset _ hc)

namespace Insert

theorem cellsOf_eq_ok {run : List Edit} (h : ∀ e ∈ run, e.Merges) :
    cellsOf run = .ok (run.map Edit.cell) :=
  mapM_eq_ok fun e he => by
    have hp := h e he
    simp only [Edit.entry, bind, Except.bind]
    rw [hp]
    rfl

/-- **One run.** A run that finds its node pours out the merged cells, from that
node on, or there are not enough slots for the chunks after the first. -/
theorem rewrite_pours {t t₁ : Tree} {height : Nat} {run : List Edit}
    {handle : Handle} {n : Node}
    (hbase : base t height ((run.head?.map (·.target)).getD .null) =
      .ok (handle, n, t₁)) (hh : n.height = height) (hm : ∀ e ∈ run, e.Merges)
    (hp : Pourable t₁.store handle (mergeCells n.cells (run.map Edit.cell))) :
    Yields (Short t₁.store.capacity (t₁.store.allocated +
        ((chunks (mergeCells n.cells (run.map Edit.cell))).length - 1)))
      (rewrite height t run) fun step => step.state.root = t₁.root ∧
        ∃ fresh, Poured t₁.store step.state.store n handle
          (chunks (mergeCells n.cells (run.map Edit.cell))) fresh ∧
          step.staged = stagedFor step.state.store n.parent fresh := by
  rw [rewrite, hbase]
  show Yields _
    (require (n.height = height) (.insertHeight handle height n.height) >>=
      fun _ => cellsOf run >>= fun cells => _) _
  rw [require_pos hh, cellsOf_eq_ok hm]
  show Yields _ (lay t₁ n handle _ >>= fun r => _) _
  refine Yields.bind (lay_pours n (t := t₁) _ (chunks_ne_nil _)
    (by rwa [flatten_chunks]) fun c hc => length_le_of_mem_chunks hc) ?_
  rintro r ⟨fresh, hroot, hstaged, hpoured⟩
  exact ⟨hroot, fresh, hpoured, hstaged⟩

theorem base_of_live {t : Tree} {handle : Handle} (height : Nat)
    (hlive : t.store.contains handle = true)
    (hi : Increasing (t.store.node handle).cells) :
    base t height handle = .ok (handle, t.store.node handle, t) := by
  have hnull : handle.isNull = false := by
    cases handle with
    | null => cases hlive
    | slot i => rfl
  rw [base, hnull, Store.read_eq_ok hlive hi]
  rfl

/-- What a site holds when its run has been merged. -/
def merged (s : Store) (a : Site) : List Cell :=
  mergeCells (s.node a.handle).cells (a.run.map Edit.cell)

/-- The sites from some one on, not yet met. -/
structure Ready (s : Store) (height : Nat) (stop : Handle) (sites : List Site) :
    Prop where
  capacity_le : s.capacity ≤ Handle.nullRaw
  live : ∀ a ∈ sites, s.contains a.handle = true
  height_eq : ∀ a ∈ sites, (s.node a.handle).height = height
  nonempty : ∀ a ∈ sites, (s.node a.handle).cells ≠ []
  increasing : ∀ a ∈ sites, Increasing (s.node a.handle).cells
  ascending : ∀ a ∈ sites, Ascending (Edit.keys a.run)
  merges : ∀ a ∈ sites, ∀ e ∈ a.run, e.Merges
  aimed : ∀ a ∈ sites, a.Aimed s
  idle : ∀ a ∈ sites, a.run = [] →
    ∀ c ∈ childrenOf (merged s a), (s.node c).parent = a.handle
  nodup : (sites.map (·.handle)).Nodup
  linked : s.Linked stop (sites.map (·.handle))
  half : ∀ p ∈ (sites.map (·.handle)).dropLast, Node.half ≤ (s.node p).size
  children_live : ∀ c ∈ childrenOf (sites.flatMap (merged s)),
    s.contains c = true
  children_nodup : (childrenOf (sites.flatMap (merged s))).Nodup
  apart : ∀ c ∈ childrenOf (sites.flatMap (merged s)), c ∉ sites.map (·.handle)

/-- What sites have become: the nodes of `row`, from the same first node on,
with the same right neighbour. -/
structure Spread (s s' : Store) (height : Nat) (stop : Handle)
    (sites : List Site) (row : List Handle) (staged : List Edit) : Prop where
  frame : Store.Frame s s' (sites.map (·.handle))
    (childrenOf (sites.flatMap (merged s)))
  live : ∀ k ∈ row, s'.contains k = true
  origin : ∀ k ∈ row, k ∈ sites.map (·.handle) ∨ s.contains k = false
  taken : ∀ k, s'.contains k = true → s.contains k = false → k ∈ row
  kept : ∀ k ∈ sites.map (·.handle), k ∈ row ∧
    (s'.node k).firstKey = (s.node k).firstKey
  height_eq : ∀ k ∈ row, (s'.node k).height = height
  parent_eq : ∀ k ∈ row, ∃ a ∈ sites,
    (s'.node k).parent = (s.node a.handle).parent
  head_eq : row.head? = (sites.map (·.handle)).head?
  linked : s'.Linked stop row
  nonempty : ∀ k ∈ row, (s'.node k).cells ≠ []
  contents_eq : s'.contents row = sites.flatMap (merged s)
  owns : ∀ p ∈ row, ∀ c ∈ (s'.node p).children, (s'.node c).parent = p
  half : ∀ p ∈ row.dropLast, Node.half ≤ (s'.node p).size
  perm : (s'.links row).Perm
    (s.links (sites.map (·.handle)) ++ staged.map Edit.cell)
  sublist : (staged.map Edit.cell).Sublist (s'.links row)
  staged_spec : ∀ e ∈ staged, e.Merges ∧
    ∃ a ∈ sites, e.target = (s.node a.handle).parent ∧ e.key ∈ a.keys s
  split : staged ≠ [] → Node.capacity < (s'.contents row).length

/-! ## Sites before their runs

What is merged at a site is in order, and the first key of its node stays in
front. No node is a child at two sites, and no child is itself the node of a
site. So a site can be worked on whichever sites were done with before it. -/

theorem key_mem_of_mem_merged {s : Store} {a : Site} {c : Cell}
    (hc : c ∈ merged s a) : c.key ∈ a.keys s := by
  rcases mem_or_mem_of_mem_mergeCells hc with hc | hc
  · exact List.mem_append_left _ (List.mem_map_of_mem hc)
  · obtain ⟨e, he, rfl⟩ := List.mem_map.mp hc
    exact List.mem_append_right _ (List.mem_map_of_mem he)

namespace Ready

variable {s : Store} {height : Nat} {stop : Handle} {a b : Site}
  {sites : List Site} (hr : Ready s height stop sites)
include hr

theorem increasing_merged (ha : a ∈ sites) : Increasing (merged s a) :=
  increasing_mergeCells (hr.increasing a ha)
    (Edit.increasing_cell (hr.ascending a ha))

/-- The first key of a site stays in front. No edit of the run has a key below
it, as the keys of a run fall in the range of the node. -/
theorem exists_cons_merged (ha : a ∈ sites) :
    ∃ c rest, merged s a = c :: rest ∧ c.key = (s.node a.handle).firstKey := by
  obtain ⟨c, rest, hc, hk⟩ := Node.exists_cons (hr.nonempty a ha)
  obtain ⟨d, rest', hd, hdk⟩ :=
    exists_cons_mergeCells c rest (a.run.map Edit.cell) fun n hn => by
      obtain ⟨e, he, rfl⟩ := List.mem_map.mp hn
      have hle := (hr.aimed a ha e he).2
      rwa [hk] at hle
  exact ⟨d, rest', by rw [merged, hc, hd], hdk.trans hk.symm⟩

theorem merged_ne_nil (ha : a ∈ sites) : merged s a ≠ [] := by
  obtain ⟨c, rest, h, -⟩ := hr.exists_cons_merged ha
  exact h ▸ List.cons_ne_nil _ _

omit hr in
theorem mem_children (ha : a ∈ sites) {c : Handle}
    (hc : c ∈ childrenOf (merged s a)) :
    c ∈ childrenOf (sites.flatMap (merged s)) := by
  rw [childrenOf_flatMap]
  exact List.mem_flatMap.mpr ⟨a, ha, hc⟩

theorem handle_ne (ha : a ∈ sites) (hb : b ∈ sites) (hab : a ≠ b) :
    a.handle ≠ b.handle :=
  fun h => hab (List.inj_on_of_nodup_map hr.nodup ha hb h)

theorem children_nodup' : (sites.flatMap fun a =>
    childrenOf (merged s a)).Nodup :=
  childrenOf_flatMap sites (merged s) ▸ hr.children_nodup

/-- No node is a child at two sites: all children of the merged cells are
distinct, whichever site they belong to. -/
theorem not_mem_children (ha : a ∈ sites) (hb : b ∈ sites) (hab : a ≠ b)
    {c : Handle} (hc : c ∈ childrenOf (merged s a)) :
    c ∉ childrenOf (merged s b) := by
  have hdisjoint := (List.nodup_flatMap.mp hr.children_nodup').2
  have : Std.Symm fun x y : Site => List.Disjoint (childrenOf (merged s x))
      (childrenOf (merged s y)) := ⟨fun _ _ h _ hy hx => h hx hy⟩
  exact fun h => hdisjoint.forall ha hb hab hc h

section Done

variable {done : List Site} (hd : done ⊆ sites)
include hd

theorem handle_not_mem_children (hb : b ∈ sites) :
    b.handle ∉ childrenOf (done.flatMap (merged s)) := by
  intro hm
  rw [childrenOf_flatMap] at hm
  obtain ⟨c, hc, hm⟩ := List.mem_flatMap.mp hm
  exact hr.apart b.handle (mem_children (hd hc) hm) (List.mem_map_of_mem hb)

theorem handle_not_mem_handles (ha : a ∈ sites) (hn : a ∉ done) :
    a.handle ∉ done.map (·.handle) := by
  intro hm
  obtain ⟨b, hb, heq⟩ := List.mem_map.mp hm
  exact hr.handle_ne (hd hb) ha (fun hba => hn (hba ▸ hb)) heq

end Done

theorem layable (ha : a ∈ sites) : Layable s a.handle (merged s a) where
  capacity_le := hr.capacity_le
  live := hr.live a ha
  increasing := hr.increasing_merged ha
  children_live c hc := hr.children_live c (mem_children ha hc)
  children_nodup := (List.nodup_flatMap.mp hr.children_nodup').1 a ha
  not_self h := hr.apart a.handle (mem_children ha h) (List.mem_map_of_mem ha)

end Ready

/-! ## Chunks that stand -/

namespace Stands

variable {s s' : Store} {like : Node} {cells : List Cell}
  {cs : List (List Cell)} {row : List Handle}

theorem contents_eq (h : Stands s like (chunks cells) row) :
    s.contents row = cells := by
  rw [h.toFilled.contents_eq, flatten_chunks]

theorem mem_chunks (h : Stands s like cs row) {k : Handle} (hk : k ∈ row) :
    (s.node k).cells ∈ cs :=
  h.cells_eq ▸ List.mem_map_of_mem hk

theorem nonempty (h : Stands s like (chunks cells) row) (hne : cells ≠ [])
    {k : Handle} (hk : k ∈ row) : (s.node k).cells ≠ [] :=
  ne_nil_of_mem_chunks hne (h.mem_chunks hk)

theorem half (h : Stands s like (chunks cells) row) {k : Handle}
    (hk : k ∈ row.dropLast) : Node.half ≤ (s.node k).size := by
  have hmem : (s.node k).cells ∈ (chunks cells).dropLast := by
    rw [← h.cells_eq, ← List.map_dropLast]
    exact List.mem_map_of_mem hk
  exact half_le_of_mem_dropLast_chunks hmem

theorem split {current : Handle} {fresh : List Handle}
    (h : Stands s like (chunks cells) (current :: fresh)) (hne : fresh ≠ []) :
    Node.capacity < cells.length := by
  refine Nat.lt_of_not_le fun hle => hne ?_
  have hcells := h.cells_eq
  rw [chunks_of_length_le hle, List.map_cons, List.cons.injEq,
    List.map_eq_nil_iff] at hcells
  exact hcells.2

theorem mem_childrenOf (h : Stands s like (chunks cells) row) {p c : Handle}
    (hp : p ∈ row) (hc : c ∈ (s.node p).children) : c ∈ childrenOf cells := by
  rw [← h.contents_eq]
  exact Store.mem_childrenOf_contents.mpr ⟨p, hp, hc⟩

theorem frame {w a : List Handle} (h : Stands s like (chunks cells) row)
    (f : Store.Frame s s' w a) (hw : ∀ k ∈ row, k ∉ w) (ha : ∀ k ∈ row, k ∉ a)
    (hlive : ∀ c ∈ childrenOf cells, s.contains c = true)
    (hc : ∀ c ∈ childrenOf cells, c ∉ a) :
    Stands s' like (chunks cells) row := by
  have hnode : ∀ k ∈ row, s'.node k = s.node k := fun k hk =>
    f.node (h.live k hk) (hw k hk) (ha k hk)
  refine ⟨⟨fun k hk => f.contains (h.live k hk), ?_, ?_, ?_, ?_⟩, ?_⟩
  · rw [← h.cells_eq]
    exact List.map_congr_left fun k hk => by rw [hnode k hk]
  · intro k hk
    rw [hnode k hk, h.height_eq k hk]
  · intro k hk
    rw [hnode k hk, h.parent_eq k hk]
  · exact (Store.linked_congr fun k hk => by rw [hnode k hk]).mpr h.linked
  · intro p hp c hcp
    rw [hnode p hp] at hcp
    have hmem := h.mem_childrenOf hp hcp
    rw [f.parent c (hlive c hmem) (hc c hmem), h.owns p hp c hcp]

end Stands

/-! ## Sites that are done with

The invariant of the level speaks of the sites that are done with and not of
the order in which they came: it is kept when they are permuted
(`Settled.perm`), and a site is added to it by what was laid out there
(`Settled.cons`). -/

/-- What some sites have become, in whatever order their runs were carried
out: their chunks stand in their nodes and in the slots taken for them. -/
structure Settled (s s' : Store) (done : List Site)
    (fresh : Handle → List Handle) : Prop where
  nodup : done.Nodup
  frame : Store.Frame s s' (done.map (·.handle))
    (childrenOf (done.flatMap (merged s)))
  taken : Store.Taken s s' (done.flatMap fun a => fresh a.handle)
  stands : ∀ a ∈ done, Stands s' (s.node a.handle) (chunks (merged s a))
    (a.handle :: fresh a.handle)

/-- What a site stages for the slots taken for it. -/
def notices (s s' : Store) (fresh : Handle → List Handle) (a : Site) :
    List Edit :=
  stagedFor s' (s.node a.handle).parent (fresh a.handle)

/-- The slots that the sites take at the most. -/
def need (s : Store) (sites : List Site) : Nat :=
  (sites.map fun a => (chunks (merged s a)).length - 1).sum

namespace Settled

variable {s s' s₁ s₂ : Store} {height : Nat} {stop : Handle} {a : Site}
  {sites done done' : List Site} {fresh : Handle → List Handle}

theorem perm (h : Settled s s' done fresh) (hp : done.Perm done') :
    Settled s s' done' fresh where
  nodup := hp.nodup_iff.mp h.nodup
  frame := h.frame.mono (hp.map _).subset fun c hc => by
    rw [childrenOf_flatMap] at hc ⊢
    exact (hp.flatMap_right _).subset hc
  taken := h.taken.perm (hp.flatMap_right _)
  stands a ha := h.stands a (hp.mem_iff.mpr ha)

theorem length_fresh (h : Settled s s' done fresh) (ha : a ∈ done) :
    (fresh a.handle).length = (chunks (merged s a)).length - 1 := by
  rw [← (h.stands a ha).cells_eq]
  simp

theorem allocated_eq (h : Settled s s' done fresh) :
    s'.allocated = s.allocated + need s done := by
  rw [h.taken.allocated_eq h.frame.allocated, List.length_flatMap, need]
  congr 2
  exact List.map_congr_left fun a ha => h.length_fresh ha

/-- A link is staged for each slot that was taken. -/
theorem length_notices (h : Settled s s' done fresh) :
    (done.flatMap (notices s s' fresh)).length = need s done := by
  rw [List.length_flatMap, need]
  congr 1
  refine List.map_congr_left fun a ha => ?_
  rw [← h.length_fresh ha]
  exact List.length_map _

/-- The sites without edits are done with from the start. What they merge is
what they hold, which fits, and their children are theirs. -/
theorem idle (hr : Ready s height stop sites) :
    Settled s s (sites.filter (·.run.isEmpty)) fun _ => [] where
  nodup := (List.Nodup.of_map _ hr.nodup).filter _
  frame := (Store.Frame.refl s).mono (List.nil_subset _) (List.nil_subset _)
  taken := by
    rw [List.flatMap_eq_nil_iff.mpr fun a _ => rfl]
    exact .of_allocated_eq rfl
  stands a ha := by
    obtain ⟨ha, hrun⟩ := List.mem_filter.mp ha
    have hrun : a.run = [] := by simpa using hrun
    have hmerged : merged s a = (s.node a.handle).cells := by
      simp [merged, hrun]
    have hone : ∀ k ∈ [a.handle], k = a.handle := by simp
    refine ⟨⟨fun k hk => hone k hk ▸ hr.live a ha, ?_,
      fun k hk => by rw [hone k hk], fun k hk => by rw [hone k hk],
      rfl, trivial⟩, ?_⟩
    · rw [hmerged, chunks_of_length_le (s.node a.handle).length_le]
      rfl
    · intro p hp c hc
      rw [hone p hp] at hc ⊢
      exact hr.idle a ha hrun c (hmerged ▸ hc)

section Step

variable (hr : Ready s height stop sites) (h : Settled s s₁ done fresh)
  (hd : done ⊆ sites) (ha : a ∈ sites) (hn : a ∉ done)
include hr h

include ha in
theorem layable : Layable s₁ a.handle (merged s a) := by
  have hl := hr.layable ha
  refine ⟨⟨?_, h.frame.contains hl.live, hl.increasing,
    fun c hc => h.frame.contains (hl.children_live c hc), hl.not_self⟩,
    hl.children_nodup⟩
  rw [h.frame.capacity]
  exact hl.capacity_le

include hd ha hn

theorem node_eq : s₁.node a.handle = s.node a.handle :=
  h.frame.node (hr.live a ha) (hr.handle_not_mem_handles hd ha hn)
    (hr.handle_not_mem_children hd ha)

omit hr in
theorem need_le : s₁.allocated + ((chunks (merged s a)).length - 1) ≤
    s.allocated + need s sites := by
  obtain ⟨l, hl, hsub⟩ := List.subperm_of_subset
    (List.nodup_cons.mpr ⟨hn, h.nodup⟩) (List.cons_subset.mpr ⟨ha, hd⟩)
  obtain ⟨rest, hrest⟩ := hsub.exists_perm_append
  have hperm := (hrest.trans (hl.append_right rest)).map fun a =>
    (chunks (merged s a)).length - 1
  have hsum := hperm.sum_nat
  simp only [List.map_append, List.map_cons, List.cons_append, List.sum_cons,
    List.sum_append] at hsum
  rw [h.allocated_eq, need, need, hsum]
  omega

/-- **One site after others.** What is laid out at a site leaves those that
are done with as they are. -/
theorem cons {new : List Handle} (hl : Laid s₁ s₂ (s.node a.handle) a.handle
    (chunks (merged s a)) new) :
    Settled s s₂ (a :: done) (Function.update fresh a.handle new) := by
  have hother : ∀ b ∈ done, Function.update fresh a.handle new b.handle =
      fresh b.handle := fun b hb => Function.update_of_ne
    (hr.handle_ne (hd hb) ha fun hba => hn (hba ▸ hb)) _ _
  have hself : Function.update fresh a.handle new a.handle = new :=
    Function.update_self _ _ _
  have hparent : (s₂.node a.handle).parent = (s₁.node a.handle).parent := by
    rw [hl.parent_eq _ (by simp), h.node_eq hr hd ha hn]
  have hframe := hl.frame.unadopt hparent
  rw [flatten_chunks] at hframe
  refine ⟨List.nodup_cons.mpr ⟨hn, h.nodup⟩, ?_, ?_, ?_⟩
  · refine (h.frame.trans hframe).mono ?_ ?_
    · intro k hk
      simpa [or_comm] using hk
    · intro k hk
      rw [List.flatMap_cons, childrenOf_append]
      simpa [or_comm] using hk
  · refine (h.taken.trans hl.taken h.frame.allocated
      hl.frame.allocated).perm ?_
    rw [List.flatMap_cons, hself]
    have hsame : (done.flatMap fun b => Function.update fresh a.handle new
        b.handle) = done.flatMap fun b => fresh b.handle := by
      rw [List.flatMap_def, List.flatMap_def, List.map_congr_left hother]
    rw [hsame]
    exact List.perm_append_comm
  · intro b hb
    rcases List.mem_cons.mp hb with rfl | hb
    · rw [hself]
      exact hl.toStands
    · rw [hother b hb]
      have hba : b ≠ a := fun hba => hn (hba ▸ hb)
      have hfresh : ∀ k ∈ fresh b.handle, s.contains k = false := fun k hk =>
        h.taken.unused (List.mem_flatMap.mpr ⟨b, hb, hk⟩)
      refine (h.stands b hb).frame hframe ?_ ?_ ?_ ?_
      · intro k hk hka
        have hlive := hr.live a ha
        rw [← List.mem_singleton.mp hka] at hlive
        rcases List.mem_cons.mp hk with rfl | hk
        · exact hr.handle_ne (hd hb) ha hba (List.mem_singleton.mp hka)
        · rw [hfresh k hk] at hlive
          cases hlive
      · intro k hk hka
        rcases List.mem_cons.mp hk with rfl | hk
        · exact hr.apart b.handle (Ready.mem_children ha hka)
            (List.mem_map_of_mem (hd hb))
        · have hlive := hr.children_live k (Ready.mem_children ha hka)
          rw [hfresh k hk] at hlive
          cases hlive
      · intro c hc
        exact h.frame.contains
          (hr.children_live c (Ready.mem_children (hd hb) hc))
      · exact fun c hc => hr.not_mem_children (hd hb) ha hba hc

theorem notices_eq {new : List Handle} (hl : Laid s₁ s₂ (s.node a.handle)
    a.handle (chunks (merged s a)) new) {b : Site} (hb : b ∈ done) :
    notices s s₂ (Function.update fresh a.handle new) b =
      notices s s₁ fresh b := by
  have hba : b ≠ a := fun hba => hn (hba ▸ hb)
  have hother : Function.update fresh a.handle new b.handle = fresh b.handle :=
    Function.update_of_ne (hr.handle_ne (hd hb) ha hba) _ _
  have h₁ := (h.stands b hb).cells_eq
  have h₂ := ((h.cons hr hd ha hn hl).stands b (List.mem_cons_of_mem _ hb)).cells_eq
  rw [hother, ← h₁] at h₂
  unfold notices stagedFor
  rw [hother]
  refine List.map_congr_left fun k hk => ?_
  rw [Node.firstKey_eq_of_cells_eq (List.map_inj_left.mp h₂ k
    (List.mem_cons_of_mem _ hk))]

end Step

end Settled

/-! ## Carrying out a run -/

/-- A run finds its node as it was, and lays out what it merges into it. There
is room for its site where there is room for all: those that are done with have
taken no more than their share. -/
theorem settle_run {s : Store} {t : Tree} {height : Nat} {stop : Handle}
    {a : Site} {sites done : List Site} {fresh : Handle → List Handle}
    (hr : Ready s height stop sites) (h : Settled s t.store done fresh)
    (hd : done ⊆ sites) (ha : a ∈ sites) (hn : a ∉ done) (hrun : a.run ≠ []) :
    Yields (Short s.capacity (s.allocated + need s sites))
      (rewrite height t a.run) fun step => step.state.root = t.root ∧
        ∃ new, Laid t.store step.state.store (s.node a.handle) a.handle
          (chunks (merged s a)) new ∧
          step.staged = stagedFor step.state.store (s.node a.handle).parent
            new := by
  have hnode := h.node_eq hr hd ha hn
  have hl := h.layable hr ha
  have htarget : (a.run.head?.map (·.target)).getD .null = a.handle :=
    congrArg Site.handle ((hr.aimed a ha).ofRun_eq hrun)
  have hbase : base t height ((a.run.head?.map (·.target)).getD .null) =
      .ok (a.handle, s.node a.handle, t) := by
    rw [htarget, ← hnode]
    exact base_of_live height hl.live (hnode ▸ hr.increasing a ha)
  have hpour := rewrite_pours hbase (hr.height_eq a ha) (hr.merges a ha)
    hl.toPourable
  rw [h.frame.capacity] at hpour
  refine (hpour.weaken fun f hf => hf.mono (h.need_le hd ha hn)).mono ?_
  rintro step ⟨hroot, new, hpoured, hstaged⟩
  refine ⟨hroot, new, hpoured.laid ?_, hstaged⟩
  rw [flatten_chunks]
  exact hl.children_nodup

/-! ## The level as a whole -/

section Carried

variable {s s' : Store} {height : Nat} {stop : Handle} {sites : List Site}

/-- The sites of the runs in the log are done with, and so are those without
edits; the log has what each site stages. -/
structure Carried (s s' : Store) (sites : List Site) (log : RunLog)
    (fresh : Handle → List Handle) : Prop where
  subset : log.runs ⊆ Site.runs sites
  settled : Settled s s'
    (log.runs.map Site.ofRun ++ sites.filter (·.run.isEmpty)) fresh
  fresh_idle : ∀ a ∈ sites, a.run = [] → fresh a.handle = []
  staged_eq : ∀ entry ∈ log,
    entry.2 = notices s s' fresh (Site.ofRun entry.1)

theorem Carried.nil (hr : Ready s height stop sites) :
    Carried s s sites [] fun _ => [] where
  subset := List.nil_subset _
  settled := Settled.idle hr
  fresh_idle _ _ _ := rfl
  staged_eq entry h := by cases h

theorem Carried.perm {log log' : RunLog} {fresh : Handle → List Handle}
    (h : Carried s s' sites log fresh) (hp : log.Perm log') :
    Carried s s' sites log' fresh where
  subset _ hrun := h.subset ((hp.map _).mem_iff.mpr hrun)
  settled := h.settled.perm (((hp.map _).map _).append_right _)
  fresh_idle := h.fresh_idle
  staged_eq entry hentry := h.staged_eq entry (hp.mem_iff.mpr hentry)

theorem Ready.ofRun_eq (hr : Ready s height stop sites) {a : Site}
    (ha : a ∈ sites) (hrun : a.run ≠ []) : Site.ofRun a.run = a :=
  (hr.aimed a ha).ofRun_eq hrun

theorem Carried.done_subset {log : RunLog} {fresh : Handle → List Handle}
    (hr : Ready s height stop sites) (h : Carried s s' sites log fresh) :
    log.runs.map Site.ofRun ++ sites.filter (·.run.isEmpty) ⊆ sites := by
  intro b hb
  rcases List.mem_append.mp hb with hb | hb
  · obtain ⟨r, hr', rfl⟩ := List.mem_map.mp hb
    obtain ⟨hne', c, hc, rfl⟩ := Site.mem_runs.mp (h.subset hr')
    rwa [hr.ofRun_eq hc hne']
  · exact (List.mem_filter.mp hb).1

theorem not_mem_done (sites : List Site) {log : RunLog} {a : Site}
    (hne : a.run ≠ []) (hnew : a.run ∉ log.runs) :
    a ∉ log.runs.map Site.ofRun ++ sites.filter (·.run.isEmpty) := by
  intro hm
  rcases List.mem_append.mp hm with hm | hm
  · obtain ⟨r, hr', heq⟩ := List.mem_map.mp hm
    exact hnew (congrArg Site.run heq ▸ hr')
  · exact hne (by simpa using (List.mem_filter.mp hm).2)

/-- **A run of the level.** Whatever runs were carried out before, the next one
is carried out as well, or the store is short of slots for the level. -/
theorem carried_run {t : Tree} {log : RunLog} {fresh : Handle → List Handle}
    (hr : Ready s height stop sites) (h : Carried s t.store sites log fresh)
    {run : List Edit} (hrun : run ∈ Site.runs sites) (hnew : run ∉ log.runs) :
    Yields (Short s.capacity (s.allocated + need s sites))
      (rewrite height t run) fun step => step.state.root = t.root ∧
        ∃ fresh', Carried s step.state.store sites (log ++ [(run, step.staged)])
          fresh' := by
  obtain ⟨hne, a, ha, rfl⟩ := Site.mem_runs.mp hrun
  have hof := hr.ofRun_eq ha hne
  have hd := h.done_subset hr
  have hn := not_mem_done sites hne hnew
  refine (settle_run hr h.settled hd ha hn hne).mono ?_
  rintro step ⟨hroot, new, hlaid, hstaged⟩
  refine ⟨hroot, _, ?_, (h.settled.cons hr hd ha hn hlaid).perm ?_, ?_, ?_⟩
  · rw [RunLog.runs_append]
    exact List.append_subset.mpr ⟨h.subset, by simpa [RunLog.runs] using hrun⟩
  · rw [RunLog.runs_append, List.map_append, List.append_assoc,
      show List.map Site.ofRun (RunLog.runs [(a.run, step.staged)]) = [a] from
        congrArg (fun b => [b]) hof]
    exact List.perm_middle.symm
  · intro b hb hidle
    rw [Function.update_of_ne (hr.handle_ne hb ha fun hba => hne (hba ▸ hidle))]
    exact h.fresh_idle b hb hidle
  · intro entry hentry
    rcases List.mem_append.mp hentry with hentry | hentry
    · rw [h.staged_eq entry hentry]
      exact (h.settled.notices_eq hr hd ha hn hlaid (List.mem_append_left _
        (List.mem_map_of_mem (List.mem_map_of_mem hentry)))).symm
    · rw [List.mem_singleton.mp hentry]
      show step.staged = notices s _ _ (Site.ofRun a.run)
      rw [hof, notices, Function.update_self, hstaged]

theorem Carried.settled_all {log : RunLog} {fresh : Handle → List Handle}
    (hr : Ready s height stop sites) (h : Carried s s' sites log fresh)
    (hall : log.runs = Site.runs sites) : Settled s s' sites fresh ∧
      log.staged = sites.flatMap (notices s s' fresh) := by
  have hmap := Site.map_ofRun hr.aimed
  rw [← hall] at hmap
  refine ⟨h.settled.perm ?_, ?_⟩
  · rw [hmap]
    exact List.perm_append_comm.trans
      (List.filter_append_perm (·.run.isEmpty) sites)
  · rw [RunLog.staged_eq_flatMap (f := fun run =>
      notices s s' fresh (Site.ofRun run)) h.staged_eq, hall]
    refine Site.flatMap_runs hr.aimed fun a ha hrun => ?_
    rw [notices, h.fresh_idle a ha hrun]
    rfl

end Carried

/-! ## The row of a level

Once all sites are done with, each stands in the row with the slots taken for
it behind its node. What `Spread` asks is read off the sites one part at a
time, and put together in `Settled.spread`. -/

theorem sublist_flatMap {α β : Type} {l : List α} {f g : α → List β}
    (h : ∀ a ∈ l, (f a).Sublist (g a)) :
    (l.flatMap f).Sublist (l.flatMap g) := by
  induction l with
  | nil => exact List.Sublist.refl _
  | cons a l ih =>
      exact (h a (by simp)).append
        (ih fun b hb => h b (List.mem_cons_of_mem _ hb))

/-- The nodes that the sites have become. -/
def rowOf (sites : List Site) (fresh : Handle → List Handle) : List Handle :=
  sites.flatMap fun a => a.handle :: fresh a.handle

@[simp] theorem map_cell_stagedFor (s : Store) (parent : Handle)
    (fresh : List Handle) :
    (stagedFor s parent fresh).map Edit.cell = s.links fresh := by
  simp [stagedFor, Store.links]

/-- Rows that start where the nodes of a chain stood and end at the next of them
are a chain. By induction on the sites. -/
theorem linked_rowOf {s s' : Store} {stop : Handle}
    {fresh : Handle → List Handle} : ∀ {sites : List Site},
    s.Linked stop (sites.map (·.handle)) →
    (∀ a ∈ sites, s'.Linked (s.node a.handle).right
      (a.handle :: fresh a.handle)) →
    s'.Linked stop (rowOf sites fresh)
  | [], _, _ => trivial
  | a :: sites, hl, h => by
      have hhead : (rowOf sites fresh).head? =
          (sites.map (·.handle)).head? := by
        cases sites <;> rfl
      rw [rowOf, List.flatMap_cons, ← rowOf, Store.linked_append, hhead,
        ← hl.1]
      exact ⟨h a (by simp), linked_rowOf hl.2 fun b hb =>
        h b (List.mem_cons_of_mem _ hb)⟩

section Row

variable {s s' : Store} {height : Nat} {stop : Handle} {sites : List Site}
  {fresh : Handle → List Handle} (hr : Ready s height stop sites)
  (h : Settled s s' sites fresh)
include hr h

/-- The first node of a site keeps its first key, which is the one that the
level above has for it. -/
theorem Settled.firstKey_eq {a : Site} (ha : a ∈ sites) :
    (s'.node a.handle).firstKey = (s.node a.handle).firstKey := by
  obtain ⟨d, rest, hd, hdk⟩ := hr.exists_cons_merged ha
  have hst := h.stands a ha
  have hcont := hst.contents_eq
  obtain ⟨c, cells, hc, hk⟩ := Node.exists_cons
    (hst.nonempty (hr.merged_ne_nil ha) (List.mem_cons_self))
  rw [Store.contents_cons, hc, hd] at hcont
  rw [hk, (List.cons.inj hcont).1, hdk]

omit hr in
theorem Settled.contents_eq :
    s'.contents (rowOf sites fresh) = sites.flatMap (merged s) := by
  rw [rowOf, Store.contents, List.flatMap_assoc, List.flatMap_def,
    List.flatMap_def]
  congr 1
  exact List.map_congr_left fun a ha => (h.stands a ha).contents_eq

theorem Settled.links_eq : s'.links (rowOf sites fresh) = sites.flatMap fun a =>
    s.links [a.handle] ++ (notices s s' fresh a).map Edit.cell := by
  rw [rowOf, Store.links, List.map_flatMap, List.flatMap_def, List.flatMap_def]
  congr 1
  refine List.map_congr_left fun a ha => ?_
  rw [notices, map_cell_stagedFor, Store.links_cons, Store.links_nil,
    ← h.firstKey_eq hr ha]
  rfl

/-- All nodes but the last of a site, and all of a site that was half full, are
half full: chunks are cut so, and a site never has fewer cells than before. -/
theorem Settled.half {p : Handle} (hp : p ∈ (rowOf sites fresh).dropLast) :
    Node.half ≤ (s'.node p).size := by
  rcases List.eq_nil_or_concat sites with rfl | ⟨front, a, rfl⟩
  · cases hp
  · rw [List.concat_eq_append] at h hr hp
    rw [rowOf, List.flatMap_append, List.flatMap_singleton,
      List.dropLast_append_of_ne_nil (List.cons_ne_nil _ _)] at hp
    rcases List.mem_append.mp hp with hp | hp
    · obtain ⟨b, hb, hp⟩ := List.mem_flatMap.mp hp
      have hst := h.stands b (List.mem_append_left _ hb)
      have hfull : Node.half ≤ (s.node b.handle).size := by
        refine hr.half b.handle ?_
        rw [List.map_append, List.map_singleton, List.dropLast_concat]
        exact List.mem_map_of_mem hb
      exact half_le_of_mem_chunks (Nat.le_trans hfull
        (length_le_length_mergeCells _ _)) (hst.mem_chunks hp)
    · exact (h.stands a (by simp)).half hp

omit hr in
/-- A site stages something only if what it merges does not fit its node. So a
tree that gets a level has a level of many cells below it. -/
theorem Settled.split (hne : sites.flatMap (notices s s' fresh) ≠ []) :
    Node.capacity < (s'.contents (rowOf sites fresh)).length := by
  obtain ⟨e, he⟩ := List.exists_mem_of_ne_nil _ hne
  obtain ⟨a, ha, he⟩ := List.mem_flatMap.mp he
  rw [h.contents_eq, List.flatMap_def]
  refine Nat.lt_of_lt_of_le ((h.stands a ha).split ?_)
    (List.sublist_flatten_of_mem (List.mem_map_of_mem ha)).length_le
  intro hnil
  rw [notices, hnil] at he
  cases he

/-- What is done with is a row again, and what it stages are its new links. -/
theorem Settled.spread : Spread s s' height stop sites (rowOf sites fresh)
    (sites.flatMap (notices s s' fresh)) := by
  have hmem : ∀ k ∈ rowOf sites fresh, ∃ a ∈ sites,
      k ∈ a.handle :: fresh a.handle := fun k hk => List.mem_flatMap.mp hk
  refine ⟨h.frame, ?_, ?_, ?_, ?_, ?_, ?_, ?_, ?_, ?_, h.contents_eq, ?_,
    fun p hp => h.half hr hp, ?_, ?_, ?_, fun hne => h.split hne⟩
  · intro k hk
    obtain ⟨a, ha, hk⟩ := hmem k hk
    exact (h.stands a ha).live k hk
  · intro k hk
    obtain ⟨a, ha, hk⟩ := hmem k hk
    rcases List.mem_cons.mp hk with rfl | hk
    · exact Or.inl (List.mem_map_of_mem ha)
    · exact Or.inr (h.taken.unused (List.mem_flatMap.mpr ⟨a, ha, hk⟩))
  · intro k hlive hunused
    obtain ⟨a, ha, hk⟩ :=
      List.mem_flatMap.mp ((h.taken.mem_iff k).mpr ⟨hlive, hunused⟩)
    exact List.mem_flatMap.mpr ⟨a, ha, List.mem_cons_of_mem _ hk⟩
  · intro k hk
    obtain ⟨a, ha, rfl⟩ := List.mem_map.mp hk
    exact ⟨List.mem_flatMap.mpr ⟨a, ha, List.mem_cons_self⟩,
      h.firstKey_eq hr ha⟩
  · intro k hk
    obtain ⟨a, ha, hk⟩ := hmem k hk
    rw [(h.stands a ha).height_eq k hk, hr.height_eq a ha]
  · intro k hk
    obtain ⟨a, ha, hk⟩ := hmem k hk
    exact ⟨a, ha, (h.stands a ha).parent_eq k hk⟩
  · cases sites <;> rfl
  · exact linked_rowOf hr.linked fun a ha => (h.stands a ha).linked
  · intro k hk
    obtain ⟨a, ha, hk⟩ := hmem k hk
    exact (h.stands a ha).nonempty (hr.merged_ne_nil ha) hk
  · intro p hp c hc
    obtain ⟨a, ha, hp⟩ := hmem p hp
    exact (h.stands a ha).owns p hp c hc
  · rw [h.links_eq hr, List.map_flatMap, Store.links, List.map_map,
      List.map_eq_flatMap]
    exact (List.flatMap_append_perm sites _ _).symm
  · rw [h.links_eq hr, List.map_flatMap]
    exact sublist_flatMap fun a _ => List.sublist_append_right _ _
  · intro e he
    obtain ⟨a, ha, he⟩ := List.mem_flatMap.mp he
    obtain ⟨k, hk, rfl⟩ := List.mem_map.mp he
    have hst := h.stands a ha
    have hk := List.mem_cons_of_mem a.handle hk
    refine ⟨Edit.merges_insert _ _ _, a, ha, rfl, ?_⟩
    obtain ⟨c, hc, hck⟩ := Node.exists_mem_key_eq_firstKey
      (hst.nonempty (hr.merged_ne_nil ha) hk)
    exact hck ▸ key_mem_of_mem_merged
      (hst.contents_eq ▸ Store.mem_contents.mpr ⟨k, hk, hc⟩)

end Row

/-- The level has been carried out as far as the log tells. -/
def Midway (t : Tree) (sites : List Site) (log : RunLog) (t' : Tree) : Prop :=
  t'.root = t.root ∧ ∃ fresh, Carried t.store t'.store sites log fresh

section Midway

variable {t t' : Tree} {height : Nat} {stop : Handle} {sites : List Site}

theorem Midway.perm (l m : RunLog) (t' : Tree) (hp : l.Perm m)
    (h : Midway t sites l t') : Midway t sites m t' := by
  obtain ⟨hroot, fresh, h⟩ := h
  exact ⟨hroot, fresh, h.perm hp⟩

variable (hr : Ready t.store height stop sites)
include hr

theorem Midway.run (log : RunLog) (t' : Tree) (run : List Edit)
    (h : Midway t sites log t') (hrun : run ∈ Site.runs sites)
    (hnew : run ∉ log.runs) :
    Yields (Short t.store.capacity (t.store.allocated + need t.store sites))
      (rewrite height t' run) fun step =>
        Midway t sites (log ++ [(run, step.staged)]) step.state := by
  obtain ⟨hroot, fresh, h⟩ := h
  refine (carried_run hr h hrun hnew).mono ?_
  rintro step ⟨hroot', fresh', h'⟩
  exact ⟨hroot'.trans hroot, fresh', h'⟩

theorem Midway.nil : Midway t sites [] t := ⟨rfl, _, .nil hr⟩

/-- **The nodes of a level under an insert.** In whatever order the runs are
carried out, in the end all sites are done with, and what was staged are the
links of the slots taken, site by site. -/
theorem settle_sites : AnyOrder (rewrite height) t (Site.runs sites)
      (Short t.store.capacity (t.store.allocated + need t.store sites))
      fun t' staged => t'.root = t.root ∧ ∃ fresh,
        Settled t.store t'.store sites fresh ∧
        staged = sites.flatMap (notices t.store t'.store fresh) := by
  refine .of_inv Midway.perm (Midway.run hr)
    (Site.nodup_runs hr.nodup hr.aimed) (Midway.nil hr) ?_
  rintro log t' ⟨hroot, fresh, h⟩ hlog
  obtain ⟨hs, hall⟩ := h.settled_all hr hlog
  exact ⟨hroot, fresh, hs, hall⟩

/-- Wherever a crew has come to, the level is midway. -/
theorem Midway.of_reaches {c : Crew Tree}
    (h : Crew.Reaches (rewrite height) t (Site.runs sites) c) :
    Midway t sites c.log c.state ∧ ∀ hand ∈ c.hands, ∀ run ∈ hand.waiting,
      run ∈ Site.runs sites ∧ run ∉ c.log.runs :=
  h.invariant Midway.perm (Midway.run hr) (Site.nodup_runs hr.nodup hr.aimed)
    (Midway.nil hr)

end Midway

end Insert

end LevelIndex
