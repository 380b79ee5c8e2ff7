import LevelIndex.Proofs.Batch.Climb
import LevelIndex.Proofs.Batch.Crew
import LevelIndex.Proofs.Remove.Amend
import LevelIndex.Proofs.Routing

/-!
# Removing from the nodes of a level

Rewriting a level for a removal changes the cells of its nodes and nothing else.
`rewrite_sites` says what becomes of each node and which edits are staged: those
that the compaction of the level has to look at.

`Carried` says it of the runs that were carried out so far, whatever their
order. Nothing is left to the order: the nodes rewritten determine the tree
(`Rewritten.unique`).
-/

namespace LevelIndex

namespace Remove

/-- A node with the edits of its site carried out. -/
def revised (s : Store) (a : Site) : Node :=
  { s.node a.handle with
    cells := amend a.run (s.node a.handle).cells
    length_le := Nat.le_trans length_amend_le (s.node a.handle).length_le }

/-- What is staged for a site. -/
def notes (root : Handle) (s : Store) (a : Site) : List Edit :=
  if a.run = [] then []
    else (report root a.handle (s.node a.handle) (revised s a)).staged

/-- Sites whose runs can be carried out. -/
structure Workable (s : Store) (height : Nat) (sites : List Site) : Prop where
  live : ∀ a ∈ sites, s.contains a.handle = true
  height_eq : ∀ a ∈ sites, (s.node a.handle).height = height
  increasing : ∀ a ∈ sites, Increasing (s.node a.handle).cells
  ascending : ∀ a ∈ sites, Ascending (Edit.keys a.run)
  alters : ∀ a ∈ sites, ∀ e ∈ a.run, e.Alters
  present : height ≠ 0 →
    ∀ a ∈ sites, ∀ e ∈ a.run, ∃ c ∈ (s.node a.handle).cells, c.key = e.key
  increasing_amend : ∀ a ∈ sites, Increasing
    (amend a.run (s.node a.handle).cells)
  aimed : ∀ a ∈ sites, a.Aimed s
  nodup : (sites.map (·.handle)).Nodup

section Sites

variable {s s' : Store} {height : Nat} {a : Site} {sites : List Site}

theorem revised_of_run_eq_nil (h : a.run = []) :
    revised s a = s.node a.handle := by
  cases hn : s.node a.handle
  simp [revised, h, hn]

theorem notes_of_run_eq_nil {root : Handle} (h : a.run = []) :
    notes root s a = [] := by
  rw [notes, if_pos h]

theorem rewrite_site {t : Tree} (hw : Workable s height sites) (ha : a ∈ sites)
    (hrun : a.run ≠ []) (hsize : t.store.allocated = s.allocated)
    (hsame : t.store.node a.handle = s.node a.handle) :
    ∃ step, rewrite height t a.run = .ok step ∧ step.state.root = t.root ∧
      step.state.store.capacity = t.store.capacity ∧
      step.state.store.allocated = t.store.allocated ∧
      (∀ k, step.state.store.node k =
        if k = a.handle then revised s a else t.store.node k) ∧
      step.staged = notes t.root s a := by
  obtain ⟨s₁, root⟩ := t
  have htarget : (a.run.head?.map (·.target)).getD .null = a.handle :=
    congrArg Site.handle ((hw.aimed a ha).ofRun_eq hrun)
  have hlive : s₁.contains a.handle = true := by
    rw [Store.contains_eq_of_allocated_eq hsize]
    exact hw.live a ha
  have hread : s₁.read a.handle = .ok (s.node a.handle) := by
    rw [← hsame]
    exact Store.read_eq_ok hlive (hsame ▸ hw.increasing a ha)
  have hmissing : ∀ e ∈ a.run, (∀ d ∈ (s.node a.handle).cells, d.key ≠ e.key) →
      absent height a.handle (s.node a.handle) e = .ok () := by
    intro e he hno
    by_cases h0 : height = 0
    · rw [absent, if_pos h0]
    · obtain ⟨c, hc, hck⟩ := hw.present h0 a ha e he
      exact absurd hck (hno c hc)
  have hrevise := revise_eq_ok (hw.increasing a ha) (hw.ascending a ha)
    (hw.alters a ha) hmissing
  obtain ⟨s', hwrite, hcap, hall, hnode⟩ :=
    Store.exists_write (n := revised s a) hlive (hw.increasing_amend a ha)
  refine ⟨{ report root a.handle (s.node a.handle)
    (revised s a) with state := ⟨s', root⟩ }, ?_, rfl, hcap, hall, hnode, ?_⟩
  · rw [rewrite]
    simp only [htarget]
    show (s₁.read a.handle >>= fun _ => _) = _
    rw [hread]
    show (require ((s.node a.handle).height = height)
      (.removeHeight a.handle height (s.node a.handle).height) >>= fun _ =>
      revise (absent height a.handle (s.node a.handle))
        (s.node a.handle).cells a.run >>=
        fun _ => _) = _
    rw [require_pos (hw.height_eq a ha), hrevise]
    show (Node.ofCells height (s.node a.handle).parent (s.node a.handle).right
      (amend a.run (s.node a.handle).cells) >>= fun _ => _) = _
    have hafter : Node.ofCells height (s.node a.handle).parent
        (s.node a.handle).right
        (amend a.run (s.node a.handle).cells) = .ok (revised s a) :=
      Node.ofCells_eq_ok_iff.mpr ⟨hw.height_eq a ha, rfl, rfl, rfl⟩
    rw [hafter]
    show (s₁.write a.handle (revised s a) >>= fun _ => _) = _
    rw [hwrite]
    rfl
  · rw [notes, if_neg hrun]

/-- A tree in which the nodes of sites have been rewritten. -/
structure Rewritten (t t' : Tree) (sites : List Site) : Prop where
  root_eq : t'.root = t.root
  capacity_eq : t'.store.capacity = t.store.capacity
  allocated_eq : t'.store.allocated = t.store.allocated
  node_eq : ∀ a ∈ sites, t'.store.node a.handle = revised t.store a
  other_eq : ∀ k, k ∉ sites.map (·.handle) → t'.store.node k = t.store.node k

/-- The sites whose nodes were rewritten determine the tree, so nothing is left
to the order of the runs. -/
theorem Rewritten.unique {t t' t'' : Tree} (h : Rewritten t t' sites)
    (h' : Rewritten t t'' sites) : t'' = t' := by
  have hstore : t''.store = t'.store := by
    refine Store.eq_of_node_eq (h'.capacity_eq.trans h.capacity_eq.symm)
      (h'.allocated_eq.trans h.allocated_eq.symm) fun k => ?_
    by_cases hk : k ∈ sites.map (·.handle)
    · obtain ⟨a, ha, rfl⟩ := List.mem_map.mp hk
      rw [h'.node_eq a ha, h.node_eq a ha]
    · rw [h'.other_eq k hk, h.other_eq k hk]
  have hroot : t''.root = t'.root := h'.root_eq.trans h.root_eq.symm
  cases t'
  cases t''
  simp_all

/-- The nodes of the runs in the log are rewritten, and the log has what is
staged for them. -/
structure Carried (t t' : Tree) (sites : List Site) (log : RunLog) :
    Prop where
  subset : log.runs ⊆ Site.runs sites
  rewritten : Rewritten t t' (log.runs.map Site.ofRun)
  staged_eq : ∀ entry ∈ log,
    entry.2 = notes t.root t.store (Site.ofRun entry.1)

theorem Carried.nil (t : Tree) (sites : List Site) :
    Carried t t sites [] where
  subset := List.nil_subset _
  rewritten := ⟨rfl, rfl, rfl, by simp [RunLog.runs], fun _ _ => rfl⟩
  staged_eq entry h := by cases h

theorem Carried.perm {t t' : Tree} {log log' : RunLog}
    (h : Carried t t' sites log) (hp : log.Perm log') :
    Carried t t' sites log' where
  subset _ hrun := h.subset ((hp.map _).mem_iff.mpr hrun)
  rewritten :=
    { h.rewritten with
      node_eq := fun a ha =>
        h.rewritten.node_eq a (((hp.map _).map _).mem_iff.mpr ha)
      other_eq := fun k hk => h.rewritten.other_eq k fun hm =>
        hk ((((hp.map _).map _).map _).mem_iff.mp hm) }
  staged_eq entry hentry := h.staged_eq entry (hp.mem_iff.mpr hentry)

theorem Carried.handle_not_mem {t t' : Tree} {log : RunLog}
    (hw : Workable t.store height sites) (h : Carried t t' sites log)
    (ha : a ∈ sites) (hnew : a.run ∉ log.runs) :
    a.handle ∉ (log.runs.map Site.ofRun).map (·.handle) := by
  intro hm
  obtain ⟨b, hb, heq⟩ := List.mem_map.mp hm
  obtain ⟨r, hr, rfl⟩ := List.mem_map.mp hb
  obtain ⟨hne, c, hc, rfl⟩ := Site.mem_runs.mp (h.subset hr)
  rw [(hw.aimed c hc).ofRun_eq hne] at heq
  exact hnew (List.inj_on_of_nodup_map hw.nodup hc ha heq ▸ hr)

/-- **A run of the level.** Whatever runs were carried out before, the next one
is carried out as well. No two runs go to one node, and no slot is taken. -/
theorem carried_run {t t' : Tree} {log : RunLog}
    (hw : Workable t.store height sites) (h : Carried t t' sites log)
    {run : List Edit} (hrun : run ∈ Site.runs sites) (hnew : run ∉ log.runs) :
    ∃ step, rewrite height t' run = .ok step ∧
      Carried t step.state sites (log ++ [(run, step.staged)]) := by
  obtain ⟨hne, a, ha, rfl⟩ := Site.mem_runs.mp hrun
  have hof := (hw.aimed a ha).ofRun_eq hne
  have hfresh := h.handle_not_mem hw ha hnew
  obtain ⟨step, hstep, hroot, hcap, hall, hnode, hstaged⟩ :=
    rewrite_site hw ha hne h.rewritten.allocated_eq
      (h.rewritten.other_eq _ hfresh)
  have hruns : (RunLog.runs (log ++ [(a.run, step.staged)])).map Site.ofRun =
      log.runs.map Site.ofRun ++ [a] := by
    rw [RunLog.runs_append, List.map_append]
    exact congrArg (fun b => _ ++ [b]) hof
  refine ⟨step, hstep, ?_, ⟨hroot.trans h.rewritten.root_eq,
    hcap.trans h.rewritten.capacity_eq,
    hall.trans h.rewritten.allocated_eq, ?_, ?_⟩, ?_⟩
  · rw [RunLog.runs_append]
    exact List.append_subset.mpr ⟨h.subset, by simpa [RunLog.runs] using hrun⟩
  · intro b hb
    rw [hruns] at hb
    rcases List.mem_append.mp hb with hb | hb
    · have hba : b.handle ≠ a.handle := fun heq =>
        hfresh (heq ▸ List.mem_map_of_mem hb)
      rw [hnode, if_neg hba, h.rewritten.node_eq b hb]
    · rw [List.mem_singleton.mp hb, hnode, if_pos rfl]
  · intro k hk
    rw [hruns, List.map_append, List.mem_append, not_or] at hk
    rw [hnode, if_neg (by simpa using hk.2), h.rewritten.other_eq k hk.1]
  · intro entry hentry
    rcases List.mem_append.mp hentry with hentry | hentry
    · exact h.staged_eq entry hentry
    · rw [List.mem_singleton.mp hentry]
      show step.staged = notes t.root t.store (Site.ofRun a.run)
      rw [hof, hstaged, h.rewritten.root_eq]

theorem Carried.rewritten_all {t t' : Tree} {log : RunLog}
    (hw : Workable t.store height sites) (h : Carried t t' sites log)
    (hall : log.runs = Site.runs sites) : Rewritten t t' sites ∧
      log.staged = sites.flatMap (notes t.root t.store) := by
  have hmap := Site.map_ofRun hw.aimed
  rw [← hall] at hmap
  have hmem : ∀ a, a ∈ log.runs.map Site.ofRun ↔ a ∈ sites ∧ a.run ≠ [] := by
    intro a
    rw [hmap, List.mem_filter]
    simp
  refine ⟨{ h.rewritten with node_eq := ?_, other_eq := ?_ }, ?_⟩
  · intro a ha
    by_cases hrun : a.run = []
    · rw [revised_of_run_eq_nil hrun]
      refine h.rewritten.other_eq _ fun hm => ?_
      obtain ⟨b, hb, heq⟩ := List.mem_map.mp hm
      obtain ⟨hb, hne⟩ := (hmem b).mp hb
      exact hne (List.inj_on_of_nodup_map hw.nodup hb ha heq ▸ hrun)
    · exact h.rewritten.node_eq a ((hmem a).mpr ⟨ha, hrun⟩)
  · intro k hk
    refine h.rewritten.other_eq k fun hm => hk ?_
    obtain ⟨a, ha, rfl⟩ := List.mem_map.mp hm
    exact List.mem_map_of_mem ((hmem a).mp ha).1
  · rw [RunLog.staged_eq_flatMap (f := fun run =>
      notes t.root t.store (Site.ofRun run)) h.staged_eq, hall]
    exact Site.flatMap_runs hw.aimed fun a _ => notes_of_run_eq_nil

section Reached

variable {t : Tree} (hw : Workable t.store height sites)
include hw

theorem Carried.run (log : RunLog) (t' : Tree) (run : List Edit)
    (h : Carried t t' sites log) (hrun : run ∈ Site.runs sites)
    (hnew : run ∉ log.runs) :
    Yields (fun _ => False) (rewrite height t' run) fun step =>
      Carried t step.state sites (log ++ [(run, step.staged)]) := by
  obtain ⟨step, hstep, h'⟩ := carried_run hw h hrun hnew
  exact yields_of_eq_ok hstep h'

/-- **The nodes of a level under a removal.** In whatever order the runs are
carried out, each node is revised by its own run, and what is staged are the
notes of the sites in their order. -/
theorem rewrite_sites : AnyOrder (rewrite height) t (Site.runs sites)
    (fun _ => False) fun t' staged => Rewritten t t' sites ∧
      staged = sites.flatMap (notes t.root t.store) :=
  .of_inv (fun _ _ _ hp h => h.perm hp) (Carried.run hw)
    (Site.nodup_runs hw.nodup hw.aimed) (.nil t sites)
    fun _ _ h hlog => h.rewritten_all hw hlog

theorem Carried.of_reaches {c : Crew Tree}
    (h : Crew.Reaches (rewrite height) t (Site.runs sites) c) :
    Carried t c.state sites c.log ∧ ∀ hand ∈ c.hands, ∀ run ∈ hand.waiting,
      run ∈ Site.runs sites ∧ run ∉ c.log.runs :=
  h.invariant (fun _ _ _ hp h => h.perm hp) (Carried.run hw)
    (Site.nodup_runs hw.nodup hw.aimed) (.nil t sites)

end Reached

end Sites

end Remove

end LevelIndex
