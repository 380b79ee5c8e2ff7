import LevelIndex.Proofs.Level
import LevelIndex.Proofs.Batch.Shares
import Mathlib.Algebra.GroupWithZero.Nat
import Mathlib.Data.List.Nodup

/-!
# Routing edits to the nodes of a level

The edits of a level are routed: each is aimed at the node whose key range holds
its key. In key order, they then fall into one run for each node of the level,
in the order of the level, and the runs are as far apart as the nodes are
(`exists_sites`). A *site* is a node with its run, which may be empty.

The sites are found from left to right. The edits that precede all links of the
later nodes are aimed at the first node (`Routed.aimed`); from the first that
does not on, all edits are routed to the later nodes (`Routed.later`), because
they are in key order.

So equal targets stand together (`Site.clustered_edits`), and the runs that an
engine carries out are those of the sites that have edits (`Site.runs_edits`). A
law about the runs is stated over all sites of a level, with nothing to do at
those without edits (`Site.flatMap_runs`, `Site.sum_runs`).
-/

namespace LevelIndex

open List

theorem Edit.runs_eq_singleton {run : List Edit} {h : Handle} (hne : run ≠ [])
    (ht : ∀ e ∈ run, e.target = h) : Edit.runs run = [run] := by
  refine splitBy_of_isChain hne ?_
  refine (List.pairwise_of_forall_mem_list ?_).isChain
  intro x hx y hy
  simp [ht x hx, ht y hy]

/-- A node of a level with the edits aimed at it. -/
structure Site where
  handle : Handle
  run : List Edit

namespace Site

/-- The site of a run: the node that its edits are aimed at, and the run. -/
def ofRun (run : List Edit) : Site :=
  ⟨(run.head?.map (·.target)).getD .null, run⟩

/-- The edits of several sites. -/
def edits (sites : List Site) : List Edit := sites.flatMap (·.run)

/-- The runs of the sites that have edits. -/
def runs (sites : List Site) : List (List Edit) :=
  (sites.map (·.run)).filter (!·.isEmpty)

/-- The keys of the cells of the node and of its edits. -/
def keys (s : Store) (a : Site) : List Key :=
  (s.node a.handle).cells.map (·.key) ++ Edit.keys a.run

/-- All keys of a site lie below all keys of the sites after it. -/
def Apart (s : Store) (sites : List Site) : Prop :=
  sites.Pairwise fun a b => ∀ x ∈ a.keys s, ∀ y ∈ b.keys s, x < y

/-- The edits of the site are aimed at its node, and none lies below the
node's first key. -/
def Aimed (s : Store) (a : Site) : Prop :=
  ∀ e ∈ a.run, e.target = a.handle ∧ (s.node a.handle).firstKey ≤ e.key

theorem Aimed.ofRun_eq {s : Store} {a : Site} (h : a.Aimed s)
    (hne : a.run ≠ []) : ofRun a.run = a := by
  obtain ⟨handle, run⟩ := a
  obtain ⟨e, rest, rfl⟩ := exists_cons_of_ne_nil hne
  simp [ofRun, (h e (by simp)).1]

@[simp] theorem edits_nil : edits [] = [] := rfl

@[simp] theorem edits_cons (a : Site) (sites : List Site) :
    edits (a :: sites) = a.run ++ edits sites := rfl

theorem mem_edits {e : Edit} {sites : List Site} :
    e ∈ edits sites ↔ ∃ a ∈ sites, e ∈ a.run :=
  mem_flatMap

theorem mem_runs {run : List Edit} {sites : List Site} :
    run ∈ runs sites ↔ run ≠ [] ∧ ∃ a ∈ sites, a.run = run := by
  simp [runs, and_comm]

variable {s : Store} {sites : List Site}

theorem firstKey_le {a : Site} (hi : Increasing (s.node a.handle).cells)
    (ha : a.Aimed s) {y : Key} (hy : y ∈ a.keys s) :
    (s.node a.handle).firstKey ≤ y := by
  rcases mem_append.mp hy with hy | hy
  · obtain ⟨c, hc, rfl⟩ := mem_map.mp hy
    exact Node.firstKey_le hi hc
  · obtain ⟨e, he, rfl⟩ := mem_map.mp hy
    exact (ha e he).2

theorem eq_of_mem_keys (h : Apart s sites) {a b : Site} (ha : a ∈ sites)
    (hb : b ∈ sites) {x : Key} (hxa : x ∈ a.keys s) (hxb : x ∈ b.keys s) :
    a = b := by
  obtain ⟨l, m, rfl⟩ := append_of_mem ha
  obtain ⟨-, hm, hlm⟩ := pairwise_append.mp h
  rcases mem_append.mp hb with hb | hb
  · exact absurd (hlm b hb a (by simp) x hxb x hxa) Int64.lt_irrefl
  · rcases mem_cons.mp hb with rfl | hb
    · rfl
    · exact absurd (rel_of_pairwise_cons hm hb x hxa x hxb) Int64.lt_irrefl

theorem run_sublist {a : Site} (ha : a ∈ sites) : a.run <+ edits sites := by
  obtain ⟨l, m, rfl⟩ := append_of_mem ha
  rw [edits, flatMap_append, flatMap_cons]
  exact (sublist_append_left _ _).trans (sublist_append_right _ _)

/-- A key of a site falls in the range of its node, be it the key of a cell or
that of an edit. -/
theorem floor_links (happ : Apart s sites)
    (hi : ∀ a ∈ sites, Increasing (s.node a.handle).cells)
    (haim : ∀ a ∈ sites, a.Aimed s)
    (hne : ∀ a ∈ sites, (s.node a.handle).cells ≠ []) {a : Site}
    (ha : a ∈ sites) {key : Key} (hk : key ∈ a.keys s) :
    floor key (s.links (sites.map (·.handle))) =
      some ⟨(s.node a.handle).firstKey, .child a.handle⟩ := by
  obtain ⟨l, m, rfl⟩ := append_of_mem ha
  rw [map_append, map_cons, Store.links_append, Store.links_cons]
  refine floor_of_split (firstKey_le (hi a ha) (haim a ha) hk) ?_
  intro d hd
  obtain ⟨p, hp, rfl⟩ := Store.mem_links.mp hd
  obtain ⟨b, hb, rfl⟩ := mem_map.mp hp
  have hab := (pairwise_append.mp happ).2.1
  obtain ⟨c, hc, hck⟩ := Node.exists_mem_key_eq_firstKey (hne b (by simp [hb]))
  show key < (s.node b.handle).firstKey
  rw [← hck]
  exact rel_of_pairwise_cons hab hb key hk c.key
    (mem_append_left _ (mem_map_of_mem hc))

section Clustered

variable (hnd : (sites.map (·.handle)).Nodup) (haim : ∀ a ∈ sites, a.Aimed s)
include hnd haim

theorem clustered_edits : Clustered (Edit.targets (edits sites)) := by
  induction sites with
  | nil => intro a b h; simp [Edit.targets] at h
  | cons a sites ih =>
      intro x y h
      have hrest := ih hnd.tail fun b hb => haim b (mem_cons_of_mem _ hb)
      have hfirst : ∀ z ∈ Edit.targets a.run, z = a.handle := fun z hz => by
        obtain ⟨e, he, rfl⟩ := mem_map.mp hz
        exact (haim a (by simp) e he).1
      have hlater : a.handle ∉ Edit.targets (edits sites) := fun hmem => by
        obtain ⟨e, he, htarget⟩ := mem_map.mp hmem
        obtain ⟨b, hb, he⟩ := mem_edits.mp he
        have hbh : b.handle = a.handle :=
          ((haim b (mem_cons_of_mem _ hb) e he).1).symm.trans htarget
        have hin := mem_map_of_mem (f := (·.handle)) hb
        rw [hbh] at hin
        exact (nodup_cons.mp hnd).1 hin
      rw [edits_cons, Edit.targets, map_append] at h
      obtain ⟨l, m, hlm, hl, hm⟩ := sublist_append_iff.mp h
      match l, hlm, hl with
      | [], hlm, _ => exact hrest x y (hlm ▸ hm)
      | [_], hlm, hl =>
          simp only [cons_append, nil_append, cons.injEq] at hlm
          obtain ⟨rfl, rfl⟩ := hlm
          have hx := hfirst x (singleton_sublist.mp hl)
          exact absurd (hm.subset (by simp)) (hx ▸ hlater)
      | [_, _], hlm, hl =>
          simp only [cons_append, cons.injEq] at hlm
          obtain ⟨rfl, rfl, rfl⟩ := hlm
          rw [hfirst x (hl.subset (by simp)), hfirst y (hl.subset (by simp))]
      | _ :: _ :: _ :: l, hlm, hl =>
          simp only [cons_append, cons.injEq] at hlm
          obtain ⟨rfl, rfl, -⟩ := hlm
          rw [hfirst x (hl.subset (by simp)), hfirst y (hl.subset (by simp))]

theorem runs_edits : Edit.runs (edits sites) = runs sites := by
  induction sites with
  | nil => rfl
  | cons a sites ih =>
      have hrest := ih hnd.tail fun b hb => haim b (mem_cons_of_mem _ hb)
      rw [edits_cons, runs, map_cons]
      by_cases ha : a.run = []
      · rw [ha, nil_append, hrest]
        rfl
      · have haim' := haim a (by simp)
        have hcut : ∀ x ∈ a.run.getLast?, ∀ y ∈ (edits sites).head?,
            (x.target == y.target) = false := by
          intro x hx y hy
          obtain ⟨b, hb, hyb⟩ := mem_edits.mp (mem_of_head? hy)
          have hne : a.handle ≠ b.handle := fun heq => by
            have hin := mem_map_of_mem (f := (·.handle)) hb
            rw [← heq] at hin
            exact (nodup_cons.mp hnd).1 hin
          rw [(haim' x (mem_of_getLast? hx)).1,
            (haim b (mem_cons_of_mem _ hb) y hyb).1]
          simpa using hne
        have hone := Edit.runs_eq_singleton ha fun e he => (haim' e he).1
        rw [show Edit.runs (a.run ++ edits sites) = Edit.runs a.run ++
          Edit.runs (edits sites) from splitBy_append hcut, hone, hrest,
          filter_cons_of_pos (by simpa using ha)]
        rfl

end Clustered

/-- What is made of the runs is made of all sites, if nothing is made of a site
without edits. -/
theorem flatMap_runs {α : Type} (haim : ∀ a ∈ sites, a.Aimed s)
    {f : Site → List α} (hf : ∀ a ∈ sites, a.run = [] → f a = []) :
    (runs sites).flatMap (fun run => f (ofRun run)) = sites.flatMap f := by
  induction sites with
  | nil => rfl
  | cons a sites ih =>
      have hrest := ih (fun b hb => haim b (mem_cons_of_mem _ hb)) fun b hb =>
        hf b (mem_cons_of_mem _ hb)
      rw [runs, map_cons]
      by_cases ha : a.run = []
      · rw [filter_cons_of_neg (by simp [ha]), flatMap_cons, hf a (by simp) ha]
        exact hrest
      · rw [filter_cons_of_pos (by simpa using ha), flatMap_cons, flatMap_cons,
          (haim a (by simp)).ofRun_eq ha]
        exact congrArg _ hrest

theorem sum_runs (haim : ∀ a ∈ sites, a.Aimed s) {f : Site → Nat}
    (hf : ∀ a ∈ sites, a.run = [] → f a = 0) :
    ((runs sites).map fun run => f (ofRun run)).sum = (sites.map f).sum := by
  have h := congrArg length (flatMap_runs haim (f := fun a => replicate (f a) ())
    fun a ha hrun => by rw [hf a ha hrun]; rfl)
  simpa only [length_flatMap, length_replicate] using h

theorem map_ofRun (haim : ∀ a ∈ sites, a.Aimed s) :
    (runs sites).map ofRun = sites.filter (!·.run.isEmpty) := by
  rw [runs, filter_map, map_map]
  refine (map_congr_left fun a ha => ?_).trans (map_id _)
  obtain ⟨ha, hrun⟩ := mem_filter.mp ha
  exact (haim a ha).ofRun_eq (by simpa using hrun)

theorem nodup_runs (hnd : (sites.map (·.handle)).Nodup)
    (haim : ∀ a ∈ sites, a.Aimed s) : (runs sites).Nodup := by
  refine Nodup.of_map ofRun ?_
  rw [map_ofRun haim]
  exact (Nodup.of_map _ hnd).filter _

end Site

namespace Store

/-- Each edit is aimed at the node whose key range holds its key. -/
def Routed (s : Store) (row : List Handle) (edits : List Edit) : Prop :=
  ∀ e ∈ edits, ∃ key, floor e.key (s.links row) = some ⟨key, .child e.target⟩

/-- The edits of a level in runs, one for each of its nodes. -/
structure Sited (s : Store) (row : List Handle) (edits : List Edit)
    (sites : List Site) : Prop where
  row_eq : sites.map (·.handle) = row
  edits_eq : Site.edits sites = edits
  aimed : ∀ a ∈ sites, a.Aimed s
  apart : Site.Apart s sites

theorem Sited.mem_row {s : Store} {row : List Handle} {edits : List Edit}
    {sites : List Site} (h : s.Sited row edits sites) {a : Site}
    (ha : a ∈ sites) : a.handle ∈ row :=
  h.row_eq ▸ mem_map_of_mem (f := (·.handle)) ha

theorem Sited.mem_edits {s : Store} {row : List Handle} {edits : List Edit}
    {sites : List Site} (h : s.Sited row edits sites) {a : Site}
    (ha : a ∈ sites) {e : Edit} (he : e ∈ a.run) : e ∈ edits :=
  h.edits_eq ▸ Site.mem_edits.mpr ⟨a, ha, he⟩

theorem Sited.run_eq_nil {s : Store} {row : List Handle} {edits : List Edit}
    {sites : List Site} (h : s.Sited row edits sites) {a : Site}
    (ha : a ∈ sites) (hn : a.handle ∉ Edit.targets edits) : a.run = [] := by
  refine List.eq_nil_iff_forall_not_mem.mpr fun e he => hn ?_
  rw [← (h.aimed a ha e he).1]
  exact List.mem_map_of_mem (h.mem_edits ha he)

theorem Routed.floor_eq {s : Store} {row : List Handle} {edits : List Edit}
    (h : s.Routed row edits) {e : Edit} (he : e ∈ edits) : e.target ∈ row ∧
      floor e.key (s.links row) =
        some ⟨(s.node e.target).firstKey, .child e.target⟩ := by
  obtain ⟨key, hf⟩ := h e he
  obtain ⟨p, hp, heq⟩ := mem_links.mp (mem_of_floor hf).1
  cases heq
  exact ⟨hp, hf⟩

theorem Routed.target_mem {s : Store} {row : List Handle} {edits : List Edit}
    (h : s.Routed row edits) {e : Edit} (he : e ∈ edits) : e.target ∈ row :=
  (h.floor_eq he).1

/-- The key of the edit lies below the first keys of the nodes. -/
def precedes (s : Store) (row : List Handle) (e : Edit) : Bool :=
  (s.links row).all fun c => e.key < c.key

section Precedes

variable {s : Store} {p : Handle} {row : List Handle} {edits : List Edit}
  {e : Edit}

theorem lt_of_mem_takeWhile (he : e ∈ edits.takeWhile (s.precedes row)) :
    ∀ c ∈ s.links row, e.key < c.key := by
  intro c hc
  have h := all_eq_true.mp all_takeWhile e he
  simpa [precedes] using all_eq_true.mp h c hc

theorem exists_le_of_mem_dropWhile (ha : Ascending (Edit.keys edits))
    (he : e ∈ edits.dropWhile (s.precedes row)) :
    ∃ c ∈ s.links row, c.key ≤ e.key := by
  have hkeys : Ascending (Edit.keys (edits.dropWhile (s.precedes row))) :=
    ha.sublist
      (Sublist.map (fun e : Edit => e.key) (dropWhile_sublist (s.precedes row)))
  cases hd : edits.dropWhile (s.precedes row) with
  | nil =>
      rw [hd] at he
      cases he
  | cons b tail =>
      have hb : s.precedes row b = false := by
        have h :=
          head_dropWhile_not (s.precedes row) (l := edits) (by simp [hd])
        simpa [hd] using h
      have hbe : b.key ≤ e.key := by
        rw [hd] at he hkeys
        rcases mem_cons.mp he with rfl | he
        · exact Int64.le_refl _
        · exact Int64.le_of_lt (rel_of_pairwise_cons hkeys (mem_map_of_mem he))
      obtain ⟨c, hc, hcb⟩ := all_eq_false.mp hb
      exact ⟨c, hc, Int64.le_trans (Int64.not_lt.mp (by simpa using hcb)) hbe⟩

theorem Routed.aimed (hr : s.Routed (p :: row) edits) :
    Site.Aimed s ⟨p, edits.takeWhile (s.precedes row)⟩ := by
  intro e he
  obtain ⟨key, hf⟩ := hr e (takeWhile_sublist _ |>.subset he)
  rw [links_cons, floor_cons, floor_eq_none (lt_of_mem_takeWhile he),
    floor_singleton] at hf
  split at hf
  · next hle =>
      simp only [Option.none_or, Option.some.injEq, Cell.mk.injEq,
        Entry.child.injEq] at hf
      exact ⟨hf.2.symm, hle⟩
  · cases hf

theorem Routed.later (ha : Ascending (Edit.keys edits))
    (hr : s.Routed (p :: row) edits) :
    s.Routed row (edits.dropWhile (s.precedes row)) := by
  intro e he
  obtain ⟨c, hc, hle⟩ := exists_le_of_mem_dropWhile ha he
  obtain ⟨d, hd⟩ := floor_isSome_of_mem hc hle
  obtain ⟨key, hf⟩ := hr e (dropWhile_sublist _ |>.subset he)
  rw [links_cons, floor_cons, hd] at hf
  exact ⟨key, hd.trans hf⟩

end Precedes

/-- Routed edits in key order fall into a run for each node of the level. By
induction on the row, the first node taking what precedes the others. A cell of
the first node lies below every cell of a later one, so the sites are as far
apart as their nodes. -/
theorem exists_sites {s : Store} {row : List Handle} {edits : List Edit}
    (hi : Increasing (s.contents row)) (hne : ∀ h ∈ row, (s.node h).cells ≠ [])
    (ha : Ascending (Edit.keys edits)) (hr : s.Routed row edits) :
    ∃ sites : List Site, s.Sited row edits sites := by
  induction row generalizing edits with
  | nil =>
      cases edits with
      | nil => exact ⟨[], rfl, rfl, by simp, Pairwise.nil⟩
      | cons e edits =>
          obtain ⟨key, h⟩ := hr e (by simp)
          cases h
  | cons p row ih =>
      have hi' := pairwise_append.mp hi
      have hne' : ∀ h ∈ row, (s.node h).cells ≠ [] :=
        fun h hh => hne h (mem_cons_of_mem _ hh)
      have hkeys : Ascending (Edit.keys (edits.dropWhile (s.precedes row))) :=
        ha.sublist
          (Sublist.map (fun e : Edit => e.key)
          (dropWhile_sublist (s.precedes row)))
      obtain ⟨sites, hrow, hedits, haimed, hapart⟩ :=
        ih hi'.2.1 hne' hkeys (hr.later ha)
      refine ⟨⟨p, edits.takeWhile (s.precedes row)⟩ :: sites, by simp [hrow],
        ?_, ?_, pairwise_cons.mpr ⟨?_, hapart⟩⟩
      · rw [Site.edits_cons, hedits]
        exact takeWhile_append_dropWhile
      · intro a hmem
        rcases mem_cons.mp hmem with rfl | hmem
        · exact hr.aimed
        · exact haimed a hmem
      · intro b hb x hx y hy
        have hbrow : b.handle ∈ row := hrow ▸ mem_map_of_mem hb
        refine Int64.lt_of_lt_of_le ?_
          (Site.firstKey_le (increasing_cells hi'.2.1 hbrow) (haimed b hb) hy)
        rcases mem_append.mp hx with hx | hx
        · obtain ⟨c, hc, rfl⟩ := mem_map.mp hx
          obtain ⟨d, hd, hdk⟩ :=
            Node.exists_mem_key_eq_firstKey (hne' b.handle hbrow)
          rw [← hdk]
          exact hi'.2.2 c hc d (mem_contents.mpr ⟨b.handle, hbrow, hd⟩)
        · obtain ⟨e, he, rfl⟩ := mem_map.mp hx
          exact lt_of_mem_takeWhile he ⟨(s.node b.handle).firstKey,
            .child b.handle⟩ (mem_links.mpr ⟨b.handle, hbrow, rfl⟩)

end Store

end LevelIndex
