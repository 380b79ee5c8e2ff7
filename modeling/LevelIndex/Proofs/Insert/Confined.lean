import LevelIndex.Proofs.Insert.Climb

/-!
# How far an insert reaches

A level of an insert writes the nodes that its edits are aimed at, and changes
the owners of nodes of the level below. What it stages goes to the parents of
nodes that it had edits for (`Confined`). So the edits go up from the leaves
they start at on the paths to the root, and a node off these paths keeps all but
its parent at the most (`Rising.run_spares`).

The paths are given as a property of nodes, `busy`, that holds of the targets of
the batch and is passed on from a node to the one over it. Nodes of the old tree
that are not busy are not aimed at by any edit on the way; over the old root all
nodes are new.
-/

namespace LevelIndex

namespace Insert

/-- Work on a level for some edits writes to their targets only, and what it
stages is aimed at parents of these. -/
structure Confined (t t' : Tree) (beneath : List Handle)
    (edits staged : List Edit) : Prop where
  frame : Store.Frame t.store t'.store (Edit.targets edits) beneath
  aimed : ∀ e ∈ staged, ∃ p ∈ Edit.targets edits,
    e.target = (t.store.node p).parent

theorem Settled.body_eq {s s' : Store} {sites : List Site} {a : Site}
    {fresh : Handle → List Handle} (h : Settled s s' sites fresh)
    (ha : a ∈ sites) (hrun : a.run = []) : fresh a.handle = [] ∧
      (s'.node a.handle).body = (s.node a.handle).body := by
  have hst := h.stands a ha
  have hcells := hst.cells_eq
  rw [merged, hrun, List.map_nil, mergeCells_nil_right,
    chunks_of_length_le (s.node a.handle).length_le, List.map_cons,
    List.cons.injEq, List.map_eq_nil_iff] at hcells
  obtain ⟨hcells, hfresh⟩ := hcells
  have hlinked := hst.linked
  rw [hfresh] at hlinked
  exact ⟨hfresh, Node.eq_of_fields_eq (hst.height_eq _ List.mem_cons_self) rfl
    hlinked.1 hcells⟩

namespace Rising

variable {t t' : Tree} {row : Nat → List Handle} {height gap : Nat}
  {items : List Pair} {edits : List Edit}

theorem mem_row_or_null (r : Rising t row height gap items edits) {p : Handle}
    (hp : p ∈ Edit.targets edits) : gap ≤ height ∧ p ∈ row gap ∨ p = .null := by
  obtain ⟨e, he, rfl⟩ := List.mem_map.mp hp
  by_cases hg : gap ≤ height
  · exact Or.inl ⟨hg, (r.within hg).1.target_mem he⟩
  · exact Or.inr ((r.above (Nat.lt_of_not_le hg)).1 e he)

theorem confined_within (r : Rising t row height gap items edits)
    (hg : gap ≤ height) {sites : List Site}
    (hsites : t.store.Sited (row gap) edits sites)
    {fresh : Handle → List Handle} (h : Settled t.store t'.store sites fresh) :
    Confined t t' (Store.beneath row gap) edits
      (sites.flatMap (notices t.store t'.store fresh)) where
  frame :=
    have hf := r.frame_of_spread hg hsites (h.spread (r.ready hg hsites).2)
    { hf with
      body := fun k hk hn => by
        by_cases hm : k ∈ row gap
        · obtain ⟨a, ha, rfl⟩ := List.mem_map.mp (hsites.row_eq ▸ hm)
          exact (h.body_eq ha (hsites.run_eq_nil ha hn)).2
        · exact hf.body k hk hm }
  aimed e he := by
    obtain ⟨a, ha, he⟩ := List.mem_flatMap.mp he
    obtain ⟨k, hk, rfl⟩ := List.mem_map.mp he
    refine ⟨a.handle, ?_, rfl⟩
    by_contra hn
    rw [(h.body_eq ha (hsites.run_eq_nil ha hn)).1] at hk
    cases hk

theorem pass_confined (r : Rising t row height gap items edits)
    (hne : edits ≠ []) :
    Yields (Full t.store) (engine.pass gap t edits) fun step =>
      Confined t step.state (Store.beneath row gap) edits step.staged := by
  by_cases hg : gap ≤ height
  · obtain ⟨sites, hsites⟩ := r.exists_sites hg
    refine Yields.bind ((r.settled hg hsites).alone.weaken
      fun f => full_of_short) fun step ⟨_, fresh, h, hstaged⟩ => ?_
    show Confined t step.state _ edits step.staged
    rw [hstaged]
    exact r.confined_within hg hsites h
  · refine Yields.bind ((r.grown (Nat.lt_of_not_le hg) hne).alone.weaken
      fun f => full_of_short) fun step ⟨s, fresh, hf, htaken, hstaged, hl⟩ => ?_
    refine ⟨(frame_of_laid hf htaken hl).mono (List.nil_subset _)
      (List.Subset.refl _), fun e he => ⟨.null, ?_, ?_⟩⟩
    · obtain ⟨e₀, rest, hcons⟩ := List.exists_cons_of_ne_nil hne
      have he₀ : e₀ ∈ edits := hcons ▸ List.mem_cons_self
      rw [← (r.above (Nat.lt_of_not_le hg)).1 e₀ he₀]
      exact List.mem_map_of_mem he₀
    · rw [show step.staged = _ from hstaged] at he
      obtain ⟨k, -, rfl⟩ := List.mem_map.mp he
      rfl

end Rising

/-- What an insert that has come to the level `gap` has left alone in the tree
`t`: the orphans, the levels from `gap` on, and everywhere the nodes that are
not busy. -/
structure Spares (t : Tree) (row : Nat → List Handle) (height : Nat)
    (busy : Handle → Prop) (gap : Nat) (t' : Tree) (edits : List Edit) :
    Prop where
  orphans : t.KeepsOrphans row height t'
  body : ∀ k ≤ height, ∀ p ∈ row k, ¬busy p →
    (t'.store.node p).body = (t.store.node p).body
  ahead : ∀ k ≤ height, gap ≤ k → ∀ p ∈ row k,
    t'.store.node p = t.store.node p
  aimed : gap ≤ height → ∀ e ∈ edits, e.target ∈ row gap ∧ busy e.target

section Run

variable {t : Tree} {row : Nat → List Handle} {height : Nat}
  {items : List Pair} {busy : Handle → Prop}
  (hlive : ∀ k ≤ height, ∀ p ∈ row k, t.store.contains p = true)
  (hup : ∀ k < height, ∀ p ∈ row k, busy p →
    (t.store.node p).parent ∈ row (k + 1) ∧ busy (t.store.node p).parent)
include hlive hup

/-- **One level.** Its edits are aimed at busy nodes, and so are those that it
stages, since what is over a busy node is busy as well. -/
theorem Spares.pass {t' t'' : Tree} {row' : Nat → List Handle}
    {height' gap : Nat} {edits staged : List Edit}
    (sp : Spares t row height busy gap t' edits)
    (r : Rising t' row' height' gap items edits)
    (hext : t.Extends row height t' row' height')
    (c : Confined t' t'' (Store.beneath row' gap) edits staged) :
    Spares t row height busy (gap + 1) t'' staged where
  orphans := by
    refine sp.orphans.frame hext.allocated_le c.frame fun p hlive hp => ?_
    have hoff : ∀ {k : Nat}, k ≤ height' → p ∉ row' k :=
      hext.not_mem_of_orphan hlive hp
    refine ⟨fun hm => ?_, fun hm => ?_⟩
    · rcases r.mem_row_or_null hm with ⟨hg, hm⟩ | rfl
      · exact hoff hg hm
      · cases hlive
    · have hg := r.gap_le
      cases gap with
      | zero => cases hm
      | succ j => exact hoff (by omega) hm
  body k hk p hp hn := by
    have hin := hlive k hk p hp
    rw [c.frame.body p (Store.contains_of_allocated_le hext.allocated_le hin),
      sp.body k hk p hp hn]
    intro hm
    by_cases hg : gap ≤ height
    · obtain ⟨e, he, rfl⟩ := List.mem_map.mp hm
      exact hn (sp.aimed hg e he).2
    · rcases r.mem_row_or_null hm with ⟨hg', hm⟩ | rfl
      · rcases hext.origin gap hg' p hm with ⟨hle, -⟩ | hunused
        · exact hg hle
        · rw [hin] at hunused
          cases hunused
      · cases hin
  ahead k hk hlt p hp := by
    have hp' := (hext.kept k hk p hp).1
    have hk' : k ≤ height' := Nat.le_trans hk hext.height_le
    have hin := (r.level k hk').live p hp'
    rw [c.frame.node hin ?_ (r.not_mem_beneath hk' (by omega) hp'),
      sp.ahead k hk (by omega) p hp]
    intro hm
    rcases r.mem_row_or_null hm with ⟨hg, hm⟩ | rfl
    · exact r.not_mem_of_ne hk' hg (by omega) hp' hm
    · cases hin
  aimed hg e he := by
    obtain ⟨p, hp, htarget⟩ := c.aimed e he
    obtain ⟨e', he', rfl⟩ := List.mem_map.mp hp
    obtain ⟨hrow, hbusy⟩ := sp.aimed (Nat.le_of_succ_le hg) e' he'
    rw [htarget, sp.ahead gap (Nat.le_of_succ_le hg) (Nat.le_refl _) _ hrow]
    exact hup gap hg _ hrow hbusy

/-- **A whole batch.** What is off the paths from its targets to the root keeps
all but its parent, and an orphan keeps everything. -/
theorem Rising.run_spares {edits : List Edit}
    (r : Rising t row height 0 items edits)
    (haim : ∀ p ∈ Edit.targets edits, busy p) {pool : Pool} {t' : Tree}
    (h : (engine.run pool t edits).ending = .ok t') :
    t.KeepsOrphans row height t' ∧ ∀ k ≤ height, ∀ p ∈ row k, ¬busy p →
      (t'.store.node p).body = (t.store.node p).body := by
  have hlevels := (r.run_spec pool).2
  have hstart : Spares t row height busy 0 t edits :=
    { orphans := fun _ _ _ => rfl
      body := fun _ _ _ _ _ => rfl
      ahead := fun _ _ _ _ _ => rfl
      aimed := fun hg e he => ⟨(r.within hg).1.target_mem he,
        haim _ (List.mem_map_of_mem he)⟩ }
  obtain ⟨gap, row', height', -, -, sp⟩ := Engine.run_keeps
    (P := fun gap t' edits => ∃ row' height',
      Rising t' row' height' gap items edits ∧
      t.Extends row height t' row' height' ∧
      Spares t row height busy gap t' edits)
    ⟨row, height, r, .refl t row height, hstart⟩
    (fun l hl hne ⟨row', height', r', hext, sp⟩ => by
      have hpass := (hlevels l hl).2
      obtain ⟨row'', height'', -, -, r'', hext'⟩ :=
        (r'.pass_yields hne).of_ok hpass
      exact ⟨row'', height'', r'', hext.trans hext',
        sp.pass hlive hup r' hext ((r'.pass_confined hne).of_ok hpass)⟩) h
  exact ⟨sp.orphans, sp.body⟩

end Run

end Insert

end LevelIndex
