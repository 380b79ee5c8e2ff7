import LevelIndex.Proofs.Insert.Split
import LevelIndex.Proofs.Parcels

/-!
# Splits on the way of a batch

Wherever an insert has come to, in whatever order the runs were carried out, the
law of `Split` holds of every node of the level at hand and of every run that
may be merged into it, whether or not the batch has such a run; and where the
level is to be put over the root, of every run aimed at null. Only slots may be
lacking.
-/

namespace LevelIndex

namespace Insert

/-- Every run that may be merged into the node splits it, if there is a slot for
each node after the first. -/
def SplitsAt (t : Tree) (height : Nat) (h : Handle) : Prop :=
  ∀ run, Apt t.store height h run →
    t.store.allocated + (nodesFor (mergeCells (t.store.node h).cells
      (run.map Edit.cell)).length - 1) ≤ t.store.capacity →
    ∃ step fresh, rewrite height t run = .ok step ∧
      step.state.root = t.root ∧ t.store.Taken step.state.store fresh ∧
      Split t.store step.state.store (t.store.node h) h
        (mergeCells (t.store.node h).cells (run.map Edit.cell)) fresh
        step.staged

/-- Every run aimed at null splits a new root over the old one, if there is a
slot for each new node. -/
def SplitsOver (t : Tree) (height : Nat) : Prop :=
  ∀ run, Apt t.store height .null run →
    t.store.allocated + nodesFor (mergeCells [⟨minKey, .child t.root⟩]
      (run.map Edit.cell)).length ≤ t.store.capacity →
    ∃ step fresh, rewrite height t run = .ok step ∧
      t.store.Taken step.state.store (step.state.root :: fresh) ∧
      Split t.store step.state.store (overRoot height t.root) step.state.root
        (mergeCells [⟨minKey, .child t.root⟩] (run.map Edit.cell)) fresh
        step.staged

theorem Tier.splitsAt {t : Tree} {top height : Nat} {row : List Handle}
    (w : Tier t top height row) {h : Handle} (hh : h ∈ row) :
    SplitsAt t height h := by
  intro run r hroom
  have hy := rewrite_splits w.capacity_le (w.receptive h hh) r
  obtain ⟨step, hstep, hroot, fresh, h⟩ :=
    (hy.weaken fun f hf => Nat.not_lt_of_le hroom hf.2).exists_ok
  exact ⟨step, fresh, hstep, hroot, h⟩

theorem Rising.splitsOver {t : Tree} {row : Nat → List Handle} {height : Nat}
    {items : List Pair} {edits : List Edit}
    (r : Rising t row height (height + 1) items edits) :
    SplitsOver t (height + 1) := by
  intro run ha hroom
  have hlim := r.height_lt_heightLimit
  have hy := rewrite_splits_over (Nat.le_of_lt r.nameable) r.receptive_root
    (by omega) ha
  obtain ⟨step, hstep, fresh, h⟩ :=
    (hy.weaken fun f hf => Nat.not_lt_of_le hroom hf.2).exists_ok
  exact ⟨step, fresh, hstep, h⟩

end Insert

namespace Index

variable {x : Index}

open LevelIndex.Insert (Apt Rising Split SplitsAt SplitsOver Tier)

/-- **Splits.** Wherever an insert has come to, the nodes of the level at hand
are split by the law, and so is the root that is put over the tree if there is
no such level yet. -/
theorem insert_splits (h : x.Reachable) {batch : List Pair}
    (hb : minKey ∉ batch.map (·.key)) :
    ∃ leaves, x.locate ((normalForm batch).map (·.key)) = .ok leaves ∧
      (∀ r ∈ (x.insertCourse batch leaves).levels,
        Insert.engine.Climbs Insert.rewrite 0 x.tree
          (insertEdits (normalForm batch) leaves) r.height r.before r.edits) ∧
      ∀ gap t edits, Insert.engine.Climbs Insert.rewrite 0 x.tree
          (insertEdits (normalForm batch) leaves) gap t edits →
        ∀ c, Crew.Reaches (Insert.rewrite gap) t (Edit.runs edits) c →
          ∃ top, c.state.height = .ok top ∧
            ((gap ≤ top ∧ ∃ row, c.state.level gap = .ok row ∧
                ∀ handle ∈ row, SplitsAt c.state gap handle) ∨
              (gap = top + 1 ∧ SplitsOver c.state gap)) := by
  obtain ⟨table, s⟩ := h.exists_stores
  obtain ⟨row, height, i⟩ := s.exists_intact
  obtain ⟨leaves, hl, hr⟩ := exists_rising i hb
  refine ⟨leaves, hl, h.insertCourse_climbs hb hl,
    fun gap t edits hclimbs c hc => ?_⟩
  obtain ⟨hne, ⟨row', r⟩, -⟩ := hr.climbs h.closed hclimbs
  have hne' : max height (gap - 1) < gap → edits ≠ [] := fun hlt =>
    hne (by omega)
  have hreached : (∃ top row', Tier c.state top gap row') ∨
      gap = max height (gap - 1) + 1 ∧ c.state = t := by
    by_cases hzero : gap = 0
    · obtain ⟨rfl, rfl⟩ := hclimbs.invariant (P := fun gap t' edits' =>
        gap = 0 → t' = x.tree ∧ edits' = insertEdits (normalForm batch) leaves)
        (fun _ _ _ _ _ _ _ h => absurd h (Nat.succ_ne_zero _))
        (fun _ => ⟨rfl, rfl⟩) hzero
      subst hzero
      refine (hr.reached (fun _ => ?_) (fun hlt => absurd hlt (by omega))
        hc).imp_right fun ⟨hlt, _⟩ => absurd hlt (by omega)
      rw [i.leaves, childrenOf_leafCells]
    · exact r.reached (fun h => absurd h hzero) hne' hc
  obtain ⟨top, row'', w⟩ | ⟨hgap, rfl⟩ := hreached
  · exact ⟨top, w.height_eq, Or.inl ⟨w.le_top, row'', w.level_eq,
      fun handle hh => w.splitsAt hh⟩⟩
  · refine ⟨_, r.height_eq, Or.inr ⟨hgap, ?_⟩⟩
    generalize max height (gap - 1) = top at hgap r
    subst hgap
    exact r.splitsOver

/-- Two more pairs are too many for a full root, whatever the batch brings. The
pair that it does bring splits the root as well, and a new one is put over
it. -/
theorem insert_splits_full_root :
    ∃ (x : Index) (leaves : List Handle) (run : List Edit) (step : Step Tree)
      (fresh : List Handle), x.Reachable ∧
      minKey ∉ [(⟨20, 1⟩ : Pair)].map (·.key) ∧
      Apt x.tree.store 0 .first run ∧
      Insert.rewrite 0 x.tree run = .ok step ∧ fresh.length = 1 ∧
      Split x.tree.store step.state.store (x.tree.store.node .first) .first
        (mergeCells (x.tree.store.node .first).cells (run.map Edit.cell)) fresh
        step.staged ∧
      ∃ r ∈ (x.insertCourse [⟨20, 1⟩] leaves).levels, r.height = 1 ∧
        SplitsOver r.before 1 := by
  let config : Config := { storeCapacity := 8 }
  let run : List Edit :=
    [.insert 20 (.value 1) .first, .insert 21 (.value 2) .first]
  obtain ⟨x, events, hx⟩ := exists_ofConfig
    (show config.Valid from ⟨by decide, by decide, by decide, by decide⟩)
  have hr := (Reachable.new hx).after (oneByOne 15)
  have hb : minKey ∉ [(⟨20, 1⟩ : Pair)].map (·.key) := by decide
  have hroot : observe config (oneByOne 15) (fun y =>
      ((y.tree.level 0).toOption, y.tree.store.allocated,
        y.tree.store.capacity, (mergeCells (y.tree.store.node .first).cells
          (run.map Edit.cell)).length)) = some (some [.first], 1, 8, 18) := by
    decide +kernel
  have hcourse : observe config (oneByOne 15) (fun y =>
      (y.locate ((normalForm [⟨20, 1⟩]).map (·.key))).toOption.map fun leaves =>
        (y.insertCourse [⟨20, 1⟩] leaves).levels.map fun r =>
          (r.height, r.before.height.toOption)) =
      some (some [(0, some 0), (1, some 0)]) := by decide +kernel
  obtain ⟨leaves, hlocate, hclimbs, hlevel⟩ := insert_splits hr hb
  rw [observe, hx] at hroot hcourse
  simp only [hlocate, Option.some.injEq, Prod.mk.injEq] at hroot hcourse
  obtain ⟨hrow, hall, hcap, htotal⟩ := hroot
  have hapt : ∀ s : Store, Apt s 0 .first run := fun s =>
    { nonempty := by simp [run]
      ascending := by decide
      aimed := by simp [run, Edit.insert]
      suits := by simp [run, Edit.insert, Store.Suits] }
  have hcourse : ((x.after (oneByOne 15)).insertCourse [⟨20, 1⟩]
      leaves).levels.map (fun r => (r.height, r.before.height.toOption)) =
      [(0, some 0), (1, some 0)] := Option.some.inj hcourse
  obtain ⟨r, hmem, hseen⟩ := List.mem_map.mp
    (hcourse ▸ List.mem_cons_of_mem _ (List.mem_singleton_self _))
  obtain ⟨hone, hzero⟩ := Prod.mk.inj hseen
  obtain ⟨top, -, ⟨-, row, hfound, hsplit⟩ | ⟨htop, -⟩⟩ :=
    hlevel 0 _ _ .refl _ (Crew.Reaches.start _ _ _)
  · rw [show (x.after (oneByOne 15)).tree.level 0 = .ok row from hfound] at hrow
    obtain rfl : row = [.first] := Option.some.inj hrow
    have hsplit : SplitsAt (x.after (oneByOne 15)).tree 0 .first :=
      hsplit .first (List.mem_singleton_self _)
    obtain ⟨step, fresh, hstep, -, -, hs⟩ := hsplit run (hapt _) (by
      rw [htotal, hall, hcap]
      decide)
    have hcount := hs.count
    rw [htotal] at hcount
    obtain ⟨top, htop, hover⟩ := hlevel _ _ _ (hclimbs r hmem) _
      (Crew.Reaches.start _ _ _)
    rw [show r.before.height = .ok top from htop] at hzero
    obtain rfl : top = 0 := Option.some.inj hzero
    rw [hone] at hover
    exact ⟨_, leaves, run, step, fresh, hr, hb, hapt _, hstep,
      Nat.succ.inj hcount, hs, r, hmem, hone,
      (hover.resolve_left fun h => absurd h.1 (by omega)).2⟩
  · omega

end Index

end LevelIndex
