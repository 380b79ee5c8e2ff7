import LevelIndex.Proofs.Batch.Orders
import LevelIndex.Proofs.Insert.Climb
import LevelIndex.Proofs.Insert.Plots

/-!
# Inserts in any order

The order of the runs decides which slots the new nodes of a level take, and no
more: all crews come to the same tree and stage the same edits, up to a renaming
of the slots taken at that level (`Rising.same`). It moves no other slot.

A batch whose levels are all carried out in some order is compared with a pool
level by level (`Paired`). Below the gap the trees are renamed, and so are the
edits; what the plots of the next level are to hold is then the same up to that
renaming (`Paired.exists_plots`), and what the level makes of them extends it
(`Paired.built`). A crew that has got through has found room for the plots. They
need as many slots in the other tree, so one worker finds room there as well
(`Paired.passes`). So the batch ends in the same tree up to the slots taken by
the batch (`Rising.orderFree`).
-/

namespace LevelIndex

section Rename

variable {ρ : Equiv.Perm Handle} {s s' : Store}

@[simp] theorem Edit.key_rename (f : Handle → Handle) (e : Edit) :
    (e.rename f).key = e.key := rfl

theorem Edit.keys_rename (f : Handle → Handle) (edits : List Edit) :
    keys (edits.map (rename f)) = keys edits := by
  simp [keys]

theorem Edit.cell_rename (f : Handle → Handle) (e : Edit) :
    (e.rename f).cell = e.cell.rename f := by
  rcases e with ⟨key, payload, target, flags⟩
  cases payload <;> rfl

namespace Site

def rename (f : Handle → Handle) (a : Site) : Site where
  handle := f a.handle
  run := a.run.map (Edit.rename f)

theorem edits_rename (f : Handle → Handle) (sites : List Site) :
    edits (sites.map (rename f)) = (edits sites).map (Edit.rename f) := by
  rw [edits, edits, List.flatMap_map, List.map_flatMap]
  rfl

theorem keys_rename (hr : s.Renamed ρ s') (a : Site) :
    (a.rename ρ).keys s' = a.keys s := by
  have hcells : (s'.node (ρ a.handle)).cells.map (·.key) =
      (s.node a.handle).cells.map (·.key) := by
    rw [hr.node_eq]
    exact Node.keys_rename
  rw [keys, keys, rename, hcells, Edit.keys_rename]

end Site

theorem Store.Sited.rename {row : List Handle} {edits : List Edit}
    {sites : List Site} (h : s.Sited row edits sites) (hr : s.Renamed ρ s') :
    s'.Sited (row.map ρ) (edits.map (Edit.rename ρ))
      (sites.map (Site.rename ρ)) where
  row_eq := by
    rw [← h.row_eq, List.map_map, List.map_map]
    rfl
  edits_eq := by rw [Site.edits_rename, h.edits_eq]
  aimed := by
    intro b hb e' he'
    obtain ⟨a, ha, rfl⟩ := List.mem_map.mp hb
    obtain ⟨e, he, rfl⟩ := List.mem_map.mp he'
    obtain ⟨htarget, hle⟩ := h.aimed a ha e he
    refine ⟨congrArg ρ htarget, ?_⟩
    rw [show (a.rename ρ).handle = ρ a.handle from rfl, hr.node_eq,
      Node.firstKey_rename]
    exact hle
  apart := by
    refine List.pairwise_map.mpr (h.apart.imp fun hab => ?_)
    rwa [Site.keys_rename hr, Site.keys_rename hr]

end Rename

namespace Insert

/-! ## The plots of a level -/

section Plots

variable {s s' : Store} {sites : List Site} {gap : Nat} {root : Handle}

/-- The plot of a node of the level. -/
def plotOf (s : Store) (a : Site) : Plot where
  like := s.node a.handle
  cells := merged s a
  old := [a.handle]

/-- The plot of a level that is not there yet. -/
def topPlot (gap : Nat) (root : Handle) (due : List Cell) : Plot where
  like := overRoot gap root
  cells := due
  old := []

theorem plotOf_rename {ρ : Equiv.Perm Handle} (hr : s.Renamed ρ s') (a : Site) :
    plotOf s' (a.rename ρ) = (plotOf s a).rename ρ := by
  have hmerged : merged s' (a.rename ρ) =
      (merged s a).map (Cell.rename ρ) := by
    have hrun : (a.run.map (Edit.rename ρ)).map Edit.cell =
        (a.run.map Edit.cell).map (Cell.rename ρ) := by
      rw [List.map_map, List.map_map]
      exact List.map_congr_left fun e _ => e.cell_rename ρ
    rw [merged, merged, ← mergeCells_rename, ← hrun]
    show mergeCells (s'.node (ρ a.handle)).cells _ = _
    rw [hr.node_eq]
    rfl
  rw [plotOf, hmerged, show (a.rename ρ).handle = ρ a.handle from rfl,
    hr.node_eq]
  rfl

theorem room_plotOf : Plot.room (sites.map (plotOf s)) = need s sites := by
  rw [Plot.room, need, List.map_map]
  rfl

theorem Settled.housed {fresh : Handle → List Handle}
    (h : Settled s s' sites fresh) : Housed s s' (sites.map (plotOf s))
      fun p => fresh (p.old.headD .null) where
  frame := by
    have hold : (sites.map (plotOf s)).flatMap (·.old) =
        sites.map (·.handle) := by
      rw [List.flatMap_map, List.map_eq_flatMap]
      rfl
    rw [hold, List.flatMap_map]
    exact h.frame
  taken := by
    rw [List.flatMap_map]
    exact h.taken
  stands p hp := by
    obtain ⟨a, ha, rfl⟩ := List.mem_map.mp hp
    exact h.stands a ha

theorem Laid.housed {s₀ : Store} {handle : Handle} {due : List Cell}
    {fresh : List Handle} (hf : Store.Frame s₀ s [] [])
    (htaken : s₀.Taken s [handle])
    (h : Laid s s' (overRoot gap root) handle (chunks due) fresh) :
    Housed s₀ s' [topPlot gap root due] fun _ => handle :: fresh where
  frame := by
    have hframe := hf.of_taken htaken h.frame
    rw [flatten_chunks] at hframe
    simpa [topPlot] using hframe
  taken := by
    simpa using htaken.trans h.taken hf.allocated h.frame.allocated
  stands p hp := by
    obtain rfl := List.mem_singleton.mp hp
    exact h.toStands

end Plots

/-! ## What a level comes to -/

variable {t t' : Tree} {row : Nat → List Handle} {height gap : Nat}
  {items : List Pair} {edits : List Edit}

/-- The plots of the level hold what they are to hold, and the batch has come to
the next level. -/
structure Built (t : Tree) (row : Nat → List Handle) (height gap : Nat)
    (items : List Pair) (plots : List Plot) (t' : Tree) (staged : List Edit)
    (fresh : Plot → List Handle) : Prop where
  housed : Housed t.store t'.store plots fresh
  staged_eq : staged = plots.flatMap (Plot.notices t'.store fresh)
  rising : Rising t' (Function.update row gap (plots.flatMap (Plot.row fresh)))
    (max height gap) (gap + 1) items staged
  root_eq : gap ≤ height → t'.root = t.root
  closed : t.store.Closed → t'.store.Closed

/-- The plots are built on, whatever the order of the runs, or there is no room
for them. -/
def Builds (t : Tree) (row : Nat → List Handle) (height gap : Nat)
    (items : List Pair) (edits : List Edit) (plots : List Plot) : Prop :=
  AnyOrder (rewrite gap) t (Edit.runs edits)
    (Short t.store.capacity (t.store.allocated + Plot.room plots))
    fun t' staged => ∃ fresh,
      Built t row height gap items plots t' staged fresh

namespace Rising

variable (r : Rising t row height gap items edits)
include r

theorem built_within (hg : gap ≤ height) {sites : List Site}
    (hsites : t.store.Sited (row gap) edits sites) :
    Builds t row height gap items edits (sites.map (plotOf t.store)) := by
  rw [Builds, room_plotOf]
  refine (r.settled hg hsites).mono ?_
  rintro t' staged ⟨hroot, fresh, h, hstaged⟩
  have hs := h.spread (r.ready hg hsites).2
  rw [← hstaged] at hs
  have hrow : (sites.map (plotOf t.store)).flatMap
      (Plot.row fun p => fresh (p.old.headD .null)) = rowOf sites fresh := by
    rw [List.flatMap_map]
    rfl
  refine ⟨_, h.housed, ?_, ?_, fun _ => hroot,
    (r.spread_extends hg hsites hroot hs).closed⟩
  · rw [hstaged, List.flatMap_map]
    rfl
  · rw [hrow, Nat.max_eq_left hg]
    exact r.spread hg hsites hroot hs

theorem built_above (hg : height < gap) (hne : edits ≠ []) :
    Builds t row height gap items edits
      [topPlot gap t.root (t.store.due row items gap)] := by
  have hgap : gap = height + 1 := Nat.le_antisymm r.gap_le hg
  rw [Builds, show Plot.room [topPlot gap t.root (t.store.due row items gap)] =
    (chunks (t.store.due row items gap)).length from Nat.add_zero _]
  refine (r.grown hg hne).mono ?_
  rintro t' staged ⟨s, fresh, hf, htaken, hstaged, hl⟩
  refine ⟨_, hl.housed hf htaken, ?_, ?_, fun h => absurd h (by omega),
    (r.laid_extends hgap hf htaken hl hne).closed⟩
  · rw [hstaged]
    simp [Plot.notices, Plot.row, topPlot, overRoot]
  · rw [Nat.max_eq_right (Nat.le_of_lt hg), List.flatMap_singleton, hstaged]
    exact r.laid hgap hf htaken rfl hl

end Rising

/-! ## Two trees side by side

The second tree is the first with its slots renamed, at the same level of the
same batch. The level is built on the same plots in both, so they stay so, by a
renaming that agrees with the old one on all slots that were in use. -/

/-- Two trees that a batch may have come to at a level, the second of them the
first renamed. The slots in use before the batch have kept their names. -/
structure Paired (t : Tree) (items : List Pair) (gap : Nat) (t₁ : Tree)
    (edits₁ : List Edit) (t₂ : Tree) (edits₂ : List Edit)
    (ρ : Equiv.Perm Handle) (row₁ row₂ : Nat → List Handle) (height : Nat) :
    Prop where
  fst : Rising t₁ row₁ height gap items edits₁
  snd : Rising t₂ row₂ height gap items edits₂
  rows : ∀ k ≤ height, row₂ k = (row₁ k).map ρ
  renamed : t₁.Renamed ρ t₂
  edits_eq : edits₂ = edits₁.map (Edit.rename ρ)
  closed : t₁.store.Closed
  allocated_le : t.store.allocated ≤ t₁.store.allocated
  fixed : ∀ k, t.store.contains k = true → ρ k = k

namespace Paired

variable {t₁ t₂ : Tree} {edits₁ edits₂ : List Edit}
  {ρ : Equiv.Perm Handle} {row₁ row₂ : Nat → List Handle}

theorem refl (r : Rising t row height gap items edits)
    (hc : t.store.Closed) :
    Paired t items gap t edits t edits (Equiv.refl Handle) row row height where
  fst := r
  snd := r
  rows _ _ := (List.map_id _).symm
  renamed := .refl t
  edits_eq :=
    ((List.map_congr_left fun e _ => e.rename_id).trans (List.map_id _)).symm
  closed := hc
  allocated_le := Nat.le_refl _
  fixed _ _ := rfl

section Level

variable (h : Paired t items gap t₁ edits₁ t₂ edits₂ ρ row₁ row₂ height)
include h

/-- The next level of one tree has the plots of the other's, renamed. Over the
root there has to be an edit, or there would be no level to build. -/
theorem exists_plots (hne : height < gap → edits₁ ≠ []) :
    ∃ plots : List Plot,
    (∀ p ∈ plots, p.Known t₁.store) ∧
    Builds t₁ row₁ height gap items edits₁ plots ∧
    Builds t₂ row₂ height gap items edits₂ (plots.map (Plot.rename ρ)) := by
  have hren := h.renamed.store
  by_cases hg : gap ≤ height
  · obtain ⟨sites, hsites⟩ := h.fst.exists_sites hg
    have hready := (h.fst.ready hg hsites).2
    have hsites₂ := hsites.rename hren
    rw [← h.rows gap hg, ← h.edits_eq] at hsites₂
    have hplots : (sites.map (Site.rename ρ)).map (plotOf t₂.store) =
        (sites.map (plotOf t₁.store)).map (Plot.rename ρ) := by
      rw [List.map_map, List.map_map]
      exact List.map_congr_left fun a _ => plotOf_rename hren a
    have hsnd := h.snd.built_within hg hsites₂
    rw [hplots] at hsnd
    refine ⟨_, fun p hp => ?_, h.fst.built_within hg hsites, hsnd⟩
    obtain ⟨a, ha, rfl⟩ := List.mem_map.mp hp
    refine ⟨h.closed.parent _, h.closed.right _, fun c hc => ?_, fun k hk => ?_⟩
    · exact hready.children_live c (Ready.mem_children ha hc)
    · rw [List.mem_singleton.mp hk]
      exact hready.live a ha
  · have hg := Nat.lt_of_not_le hg
    obtain rfl : gap = height + 1 := Nat.le_antisymm h.fst.gap_le hg
    have hplot : topPlot (height + 1) t₂.root (t₂.store.due row₂ items
        (height + 1)) = (topPlot (height + 1) t₁.root (t₁.store.due row₁ items
          (height + 1))).rename ρ := by
      rw [Store.due, Store.due, h.rows height (Nat.le_refl _), hren.links_eq,
        h.renamed.root_eq]
      simp [topPlot, Plot.rename, overRoot, Node.rename, hren.null_eq,
        Cell.rename, Entry.rename]
    have hsnd := h.snd.built_above hg (by simpa [h.edits_eq] using hne hg)
    rw [hplot, ← List.map_singleton (f := Plot.rename ρ)] at hsnd
    refine ⟨_, fun p hp => ?_, h.fst.built_above hg (hne hg), hsnd⟩
    obtain rfl := List.mem_singleton.mp hp
    refine ⟨Or.inl rfl, Or.inl rfl, fun c hc => ?_, fun k hk => by cases hk⟩
    rw [topPlot, Store.childrenOf_due] at hc
    exact h.fst.live_beneath hc

/-- **A level of both.** Whatever slots are taken in each, one tree stays the
other one renamed. -/
theorem built {plots : List Plot} (hknown : ∀ p ∈ plots, p.Known t₁.store)
    {t₁' t₂' : Tree} {staged₁ staged₂ : List Edit}
    {fresh₁ fresh₂ : Plot → List Handle}
    (b₁ : Built t₁ row₁ height gap items plots t₁' staged₁ fresh₁)
    (b₂ : Built t₂ row₂ height gap items (plots.map (Plot.rename ρ)) t₂' staged₂
      fresh₂) :
    ∃ ρ' row₁' row₂' height', (∀ k, t₁.store.contains k = true → ρ' k = ρ k) ∧
      Paired t items (gap + 1) t₁' staged₁ t₂' staged₂ ρ' row₁' row₂'
        height' := by
  obtain ⟨ρ', hold, hren, hrow, hnotices⟩ :=
    b₁.housed.exists_renaming h.renamed.store b₂.housed h.closed hknown
  have hsame : ∀ k ≤ height, (row₁ k).map ρ = (row₁ k).map ρ' :=
    fun k hk => List.map_congr_left fun p hp =>
      (hold p ((h.fst.level k hk).live p hp)).symm
  have hrows : ∀ k ≤ max height gap,
      Function.update row₂ gap
        ((plots.map (Plot.rename ρ)).flatMap (Plot.row fresh₂)) k =
      (Function.update row₁ gap (plots.flatMap (Plot.row fresh₁)) k).map ρ' := by
    intro k hk
    by_cases hkg : k = gap
    · rw [hkg, Function.update_self, Function.update_self, hrow]
    · have hgap := h.fst.gap_le
      rw [Function.update_of_ne hkg, Function.update_of_ne hkg,
        h.rows k (by omega), hsame k (by omega)]
  refine ⟨ρ', _, _, _, hold, b₁.rising, b₂.rising, hrows, ⟨hren, ?_⟩, ?_,
    b₁.closed h.closed, ?_, ?_⟩
  · by_cases hg : gap ≤ height
    · rw [b₂.root_eq hg, b₁.root_eq hg, h.renamed.root_eq]
      exact (hold _ ((h.fst.level height (Nat.le_refl _)).live _
        h.fst.root_mem)).symm
    · have hhead := b₂.rising.head
      rw [hrows _ (Nat.le_refl _), List.head?_map, b₁.rising.head] at hhead
      exact (Option.some.inj hhead).symm
  · rw [b₂.staged_eq, b₁.staged_eq, hnotices]
  · exact Nat.le_trans h.allocated_le b₁.housed.frame.allocated
  · intro k hk
    rw [hold k (Store.contains_of_allocated_le h.allocated_le hk), h.fixed k hk]

theorem passes (hne : edits₁ ≠ []) {step₂ : Step Tree}
    (hp : engine.Passes rewrite gap t₂ edits₂ step₂) :
    ∃ step₁ ρ' row₁' row₂' height', engine.pass gap t₁ edits₁ = .ok step₁ ∧
      Paired t items (gap + 1) step₁.state step₁.staged step₂.state step₂.staged
        ρ' row₁' row₂' height' := by
  obtain ⟨c, hcrew, hstep⟩ := hp
  cases hstep
  obtain ⟨plots, hknown, hfst, hsnd⟩ := h.exists_plots fun _ => hne
  obtain ⟨fresh₂, b₂⟩ := AnyOrder.of_finishes hsnd hcrew
  have hroom := b₂.housed.room_le
  rw [Plot.room_rename, h.renamed.store.capacity_eq,
    h.renamed.store.allocated_eq] at hroom
  obtain ⟨first, hfirst, fresh₁, b₁⟩ :=
    (hfst.alone.weaken fun f hf => hroom hf.2).exists_ok
  obtain ⟨ρ', row₁', row₂', height', -, h'⟩ := h.built hknown b₁ b₂
  refine ⟨{ first with events := [] }, ρ', row₁', row₂', height', ?_, h'⟩
  show (Step.sequence (rewrite gap) t₁ (Edit.runs edits₁) >>= fun s => _) = _
  rw [hfirst]
  rfl

end Level

theorem edits_eq_nil_iff
    (h : Paired t items gap t₁ edits₁ t₂ edits₂ ρ row₁ row₂ height) :
    edits₂ = [] ↔ edits₁ = [] := by
  rw [h.edits_eq, List.map_eq_nil_iff]

theorem congruent
    (h : Paired t items (gap + 1) t₁ edits₁ t₂ edits₂ ρ row₁ row₂ height) :
    t₁.Congruent t₂ :=
  h.renamed.congruent h.fst.walkable (h.fst.leaves (Nat.succ_pos _))

end Paired

/-! ## Levels and batches in any order -/

/-- The crew has come to what one worker comes to, up to a renaming of the slots
taken at the level. -/
def Same (t : Tree) (step : Step Tree) (c : Crew Tree) : Prop :=
  ∃ ρ : Equiv.Perm Handle, (∀ k, t.store.contains k = true → ρ k = k) ∧
    step.state.Renamed ρ c.state ∧
    c.log.staged = step.staged.map (Edit.rename ρ) ∧
    step.state.Congruent c.state

/-- The ends of a batch are the same, up to a renaming of the slots that the
batch has taken. -/
def SameEnd (t t' t'' : Tree) : Prop :=
  ∃ ρ : Equiv.Perm Handle, (∀ k, t.store.contains k = true → ρ k = k) ∧
    t'.Renamed ρ t'' ∧ t'.Congruent t''

namespace Rising

theorem exists_builds (r : Rising t row height gap items edits)
    (hne : height < gap → edits ≠ []) (hc : t.store.Closed) :
    ∃ plots : List Plot, (∀ p ∈ plots, p.Known t.store) ∧
      Builds t row height gap items edits plots := by
  obtain ⟨plots, hknown, hfst, -⟩ := (Paired.refl r hc).exists_plots hne
  exact ⟨plots, hknown, hfst⟩

/-- **A level in any order.** What some crew makes of it is what one worker
makes of it, renamed, and where one worker runs out of slots no crew gets
done. -/
theorem same (r : Rising t row height gap items edits) (hne : edits ≠ [])
    (hc : t.store.Closed) :
    SameForAll (rewrite gap) t (Edit.runs edits) (Same t) := by
  obtain ⟨plots, hknown, hb⟩ := r.exists_builds (fun _ => hne) hc
  have hroom : ∀ t' staged, (∃ fresh, Built t row height gap items plots t'
      staged fresh) → ¬ t.store.capacity < t.store.allocated +
        Plot.room plots := by
    rintro t' staged ⟨fresh, b⟩
    exact b.housed.room_le
  refine (AnyOrder.sameForAll (g := .storeFull t.store.capacity) hb hroom).mono
    ?_
  rintro step c ⟨⟨fresh₁, b₁⟩, fresh₂, b₂⟩
  have hplots : plots.map (Plot.rename (Equiv.refl Handle)) = plots :=
    (List.map_congr_left fun p _ => p.rename_id).trans (List.map_id _)
  rw [← hplots] at b₂
  obtain ⟨ρ, row₁, row₂, height', hold, h⟩ :=
    (Paired.refl r hc).built hknown b₁ b₂
  exact ⟨ρ, hold, h.renamed, h.edits_eq, h.congruent⟩

theorem passes (r : Rising t row height gap items edits)
    (hne : height < gap → edits ≠ []) (hc : t.store.Closed) {step : Step Tree}
    (h : engine.Passes rewrite gap t edits step) :
    ∃ row', Rising step.state row' (max height gap) (gap + 1) items
      step.staged ∧ step.state.store.Closed := by
  obtain ⟨plots, -, hb⟩ := r.exists_builds hne hc
  obtain ⟨c, hcrew, hstep⟩ := h
  cases hstep
  obtain ⟨fresh, b⟩ := AnyOrder.of_finishes hb hcrew
  exact ⟨_, b.rising, b.closed hc⟩

/-- **The levels of an insert.** Up to the old root the tree has its old height
when the batch comes to a level; further up, each level is over a new root. -/
theorem climbs (r : Rising t row height 0 items edits) (hc : t.store.Closed)
    {edits' : List Edit} (h : engine.Climbs rewrite 0 t edits gap t' edits') :
    (height < gap → edits' ≠ []) ∧ (∃ row',
      Rising t' row' (max height (gap - 1)) gap items edits') ∧
      t'.store.Closed := by
  refine h.invariant (P := fun gap t' edits' => (height < gap → edits' ≠ []) ∧
    (∃ row', Rising t' row' (max height (gap - 1)) gap items edits') ∧
    t'.store.Closed) ?_
    ⟨fun h => absurd h (Nat.not_lt_zero _), ⟨row, by simpa using r⟩, hc⟩
  rintro gap t' edits' step ⟨hne, ⟨row', r'⟩, hc'⟩ hp hstaged
  obtain ⟨row'', r'', hc''⟩ := r'.passes (fun hg => hne (by omega)) hc' hp
  rw [show max (max height (gap - 1)) gap = max height gap by omega] at r''
  exact ⟨fun _ => hstaged, ⟨row'', r''⟩, hc''⟩

/-- **An insert in any order.** Every crew at every level, and the batch as a
whole with whatever crews at its levels, ends in the same tree and with the same
edits up to the slots taken. -/
theorem orderFree (r : Rising t row height 0 items edits) (hne : edits ≠ [])
    (hc : t.store.Closed) :
    engine.OrderFree rewrite t edits Same (SameEnd t) := by
  have hruns : engine.ByRuns rewrite := fun _ _ _ => rfl
  refine .of_invariant (P := fun gap t' edits => edits ≠ [] ∧
    ∃ row' height', Rising t' row' height' gap items edits ∧ t'.store.Closed)
    hruns hne ⟨hne, row, height, r, hc⟩ ?_ ?_ ?_ ?_
  · rintro gap t' edits ⟨-, row', height', r', -⟩
    exact r'.clustered
  · rintro gap t' edits step ⟨hne', row', height', r', hc'⟩ h hstaged
    obtain ⟨row'', r'', hc''⟩ := r'.passes (fun _ => hne') hc' h
    exact ⟨hstaged, row'', _, r'', hc''⟩
  · rintro gap t' edits ⟨hne', row', height', r', hc'⟩
    exact r'.same hne' hc'
  · rintro s'' ⟨_, _, _, last, hclimbs, hlast, hend, rfl⟩ p b rfl
    refine hclimbs.follow (R := fun gap t₁ edits₁ t₂ edits₂ => edits₁ ≠ [] ∧
      ∃ ρ row₁ row₂ height', Paired t items gap t₁ edits₁ t₂ edits₂ ρ row₁ row₂
        height') hruns ?_ ?_ p hlast hend (Nat.add_zero _)
      ⟨hne, _, row, row, height, .refl r hc⟩
    · rintro gap t₁ edits₁ t₂ edits₂ ⟨-, ρ, row₁, row₂, height', h⟩
      exact ⟨h.fst.gap_le_heightLimit, h.fst.clustered⟩
    · rintro gap t₁ edits₁ t₂ edits₂ step₂ ⟨hne', ρ, row₁, row₂, height', h⟩ hp
      obtain ⟨step₁, ρ', row₁', row₂', height'', hpass, h'⟩ := h.passes hne' hp
      refine ⟨step₁, hpass, ?_⟩
      split
      · next hnil =>
          exact ⟨h'.edits_eq_nil_iff.mp hnil, ρ', h'.fixed, h'.renamed,
            h'.congruent⟩
      · next hcons =>
          have hne₁ : step₁.staged ≠ [] := fun hnil =>
            hcons (h'.edits_eq_nil_iff.mpr hnil)
          exact ⟨hne₁, h'.fst.checkStaged_eq_ok, hne₁, ρ', row₁', row₂',
            height'', h'⟩

end Rising

end Insert

end LevelIndex
