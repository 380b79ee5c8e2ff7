import LevelIndex.Proofs.Remove.Climb

/-!
# Removals of keys that are not there

Removals that meet no cell leave the nodes of a level as they were. What is
flagged then is at most the last of them, which alone may be underfull. It is a
group by itself: it gathers no cells but its own, and is put back as it was,
with nothing to tell its parent (`compactFrom_calm`). So the batch ends where it
began (`Falling.run_idle`).
-/

namespace LevelIndex

namespace Remove

/-! ## Compacting a level that is in order -/

/-- The last node of a level, gathered by itself. -/
def alone (s : Store) (old : Handle → Key) (h : Handle) : Group where
  absorbed := [flag s old h]
  rest := []
  cells := (s.node h).cells
  tail := h
  tailNode := s.node h
  covered := true

section Alone

variable {t : Tree} {height : Nat} {old : Handle → Key} {h : Handle}
  {done row : List Handle}

theorem gather_last (hread : t.store.read h = .ok (t.store.node h))
    (hright : (t.store.node h).right = .null) :
    gather t height [] h [flag t.store old h] =
      .ok (alone t.store old h) := by
  rw [gather, hread]
  show (if h = h then _ else _) = _
  rw [if_pos rfl, if_neg fun hmore => hmore.2 hright]
  rfl

theorem fit_alone (u : Underway t.store height done row)
    (hh : h ∈ done ++ row) :
    fit t height h (t.store.node h) (alone t.store old h) = .ok (t, []) := by
  have hchild : ∀ c ∈ (t.store.node h).children,
      c ∈ childrenOf (t.store.contents (done ++ row)) := fun c hc =>
    Store.mem_childrenOf_contents.mpr ⟨h, hh, hc⟩
  have hcommit : t.store.commit h (t.store.node h) = .ok t.store :=
    Store.commit_self (u.live h hh) (Store.increasing_cells u.increasing hh)
      (fun c hc => ⟨u.children_live c (hchild c hc), u.owns h hh c hc⟩)
      fun hc => u.apart h (hchild h hc) hh
  have hcells : Node.ofCells height (t.store.node h).parent
      (alone t.store old h).tailNode.right (alone t.store old h).cells =
        .ok (t.store.node h) :=
    Node.ofCells_eq_ok_iff.mpr ⟨u.height_eq h hh, rfl, rfl, rfl⟩
  rw [fit, hcells, ok_bind, Tree.commit_eq_ok hcommit]
  rfl

theorem compactGroup_alone {f : Frontier}
    (u : Underway f.tree.store height done row) (hh : h ∈ done ++ row)
    (hc : Calm f.tree.store old h) :
    ∃ step, compactGroup height f (flag f.tree.store old h)
        (alone f.tree.store old h) = .ok step ∧
      step.state.tree = f.tree ∧ step.staged = [] := by
  obtain ⟨first, rest, hcells, hkey⟩ := Node.exists_cons hc.nonempty
  have hhead : (alone f.tree.store old h).cells.head? = some first :=
    congrArg List.head? hcells
  have hfirst : first.key = (flag f.tree.store old h).key :=
    hkey.symm.trans hc.firstKey_eq
  have hle : (alone f.tree.store old h).cells.length ≤ Node.capacity :=
    (f.tree.store.node h).length_le
  refine ⟨⟨⟨[], [.compacted h height (f.tree.store.node h).cells.length]⟩,
    ⟨f.tree, some h⟩⟩, ?_, rfl, rfl⟩
  rw [compactGroup, show (flag f.tree.store old h).target = h from rfl,
    u.read hh, ok_bind, hhead]
  dsimp only
  rw [if_pos hfirst, if_pos hle, fit_alone u hh]
  rfl

/-- **Compaction of a level in order.** Where all nodes start as they did, and
all but the last are half full, nothing is done and nothing is staged. -/
theorem compactFrom_calm {f : Frontier} {edits : List Edit}
    (u : Underway f.tree.store height [] row)
    (hf : Flagged f.tree.store old row edits)
    (hcalm : ∀ h ∈ row, Calm f.tree.store old h)
    (hhalf : ∀ h ∈ row.dropLast, Node.half ≤ (f.tree.store.node h).size) :
    ∃ step, compactFrom height f edits = .ok step ∧
      step.state.tree = f.tree ∧ step.staged = [] := by
  cases edits with
  | nil => exact ⟨⟨⟨[], []⟩, f⟩, by rw [compactFrom], rfl, rfl⟩
  | cons e edits =>
      obtain ⟨front, h, rest, rfl, rfl, hflags, -, hrest⟩ := hf.exists_split
      have hc := hcalm h (by simp)
      have hunder : (f.tree.store.node h).underfull = true := by
        by_contra hfull
        have hne : (f.tree.store.node h).isEmpty = false := by
          simpa [Node.isEmpty] using hc.nonempty
        simp [flag, Edit.flagged, Flags.isEmpty, hfull, hne,
          hc.firstKey_eq] at hflags
      have hlast : rest = [] := by
        by_contra hne
        have hmem : h ∈ (front ++ h :: rest).dropLast := by
          rw [List.dropLast_append_of_ne_nil (List.cons_ne_nil _ _),
            List.dropLast_cons_of_ne_nil hne]
          simp
        have hle := hhalf h hmem
        simp only [Node.underfull, decide_eq_true_eq] at hunder
        omega
      subst hlast
      cases hrest
      have hh : h ∈ [] ++ (front ++ [h]) := by simp
      have hright : (f.tree.store.node h).right = .null :=
        (Store.linked_append.mp (Store.linked_append.mp u.linked).2).2.1
      obtain ⟨step, hstep, htree, hstaged⟩ := compactGroup_alone u hh hc
      have hend : compactFrom height step.state [] =
          .ok ⟨⟨[], []⟩, step.state⟩ := by rw [compactFrom]
      refine ⟨_, compactFrom_of_group hunder (gather_last (u.read hh) hright)
        hstep hend, htree, ?_⟩
      rw [hstaged]
      rfl

end Alone

/-! ## Batches that meet nothing -/

theorem amend_eq_self {edits : List Edit} {cells : List Cell}
    (h : ∀ e ∈ edits, ∀ c ∈ cells, c.key ≠ e.key) :
    amend edits cells = cells := by
  refine (amend_congr (m := []) fun c hc => ?_).trans amend_nil_left
  exact amended_of_forall_ne fun e he => (h e he c hc).symm

namespace Falling

variable {t : Tree} {row : Nat → List Handle} {height gap : Nat}
  {items : List Pair} {edits : List Edit}

/-- Where no edit meets a cell, the level stays as it is. Its nodes may be
flagged all the same, but only the last can be underfull. -/
theorem pass_idle (r : Falling t row height gap items edits)
    (h : ∀ e ∈ edits, ∀ c ∈ t.store.contents (row gap), c.key ≠ e.key) :
    ∃ step, engine.pass gap t edits = .ok step ∧ step.state = t ∧
      step.staged = [] := by
  obtain ⟨sites, hsites⟩ := r.exists_sites
  have hl := r.level gap r.within
  have hsame : Rewritten t t sites :=
    { root_eq := rfl
      capacity_eq := rfl
      allocated_eq := rfl
      node_eq := fun a ha => by
        have hcells : amend a.run (t.store.node a.handle).cells =
            (t.store.node a.handle).cells := amend_eq_self fun e he c hc =>
          h e (hsites.mem_edits ha he) c
            (Store.mem_contents.mpr ⟨_, hsites.mem_row ha, hc⟩)
        simp only [revised, hcells]
      other_eq := fun _ _ => rfl }
  obtain ⟨first, hfirst, w, hnotes⟩ := (r.rewritten hsites).alone.exists_ok
  obtain rfl : t = first.state := w.unique hsame
  have hflagged := r.flagged hsites hsame
  rw [← hnotes] at hflagged
  obtain ⟨step, hstep, htree, hstaged⟩ := compactFrom_calm
    (f := ⟨first.state, none⟩) (r.underway hsites hsame) hflagged
    (fun p hp => ⟨hl.nonempty p hp, rfl⟩) hl.half
  refine ⟨{ step with state := step.state.tree }, ?_, htree, hstaged⟩
  show (Step.sequence (rewrite gap) first.state (Edit.runs edits) >>= fun s =>
    compact s.state gap s.staged) = _
  rw [hfirst, ok_bind, compact, hstep]
  rfl

/-- A batch that meets no cell of the leaves leaves the tree as it is. It has
come to its end there, with nothing staged for the level above. -/
theorem run_idle (r : Falling t row height 0 items edits)
    (h : ∀ e ∈ edits, ∀ c ∈ t.store.contents (row 0), c.key ≠ e.key)
    (pool : Pool) : (engine.run pool t edits).ending = .ok t := by
  by_cases hne : edits = []
  · rw [hne, Engine.run_nil]
  · have hruns : engine.ByRuns rewrite := fun _ _ _ => rfl
    obtain ⟨step, hpass, hstate, hstaged⟩ := r.pass_idle h
    rw [Engine.run_of_pass hruns.divisible r.clustered hne hpass hstaged,
      hstate]

end Falling

end Remove

end LevelIndex
