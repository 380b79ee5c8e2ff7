import LevelIndex.Proofs.Insert.Climb
import Mathlib.Algebra.Order.BigOperators.Group.List
import Mathlib.Data.Nat.Digits.Defs

/-!
# How far an insert climbs

Below the old root a level may stage as many edits as have come to it, but no
more: a run of `r` edits adds at most `r` cells to a node, and so takes at most
`r` slots (`need_le`). Over the root it is different. All edits go to one new
node, which holds a link for each node of the level below, so a sixteenth of the
edits is all that is left (`Stacked.pass`), and the levels there are what a tree
of that many nodes needs (`Stacked.tapers`). The number of new levels is that of
the digits of the edits that came out of the old root (`Rising.run_grows`).

With `n` edits in the batch a tree of the height `H` therefore takes at most `n`
slots for each of its levels and as many over the root (`Rising.run_room`).
-/

namespace LevelIndex

namespace Insert

/-! ## The slots that a level takes -/

section Need

variable {s : Store} {height : Nat} {stop : Handle} {sites : List Site}
  (hr : Ready s height stop sites)
include hr

theorem need_eq_sum_runs : need s sites = ((Site.runs sites).map fun run =>
    nodesFor (merged s (Site.ofRun run)).length - 1).sum := by
  have hsite : need s sites =
      (sites.map fun a => nodesFor (merged s a).length - 1).sum := by
    rw [need]
    congr 1
    exact List.map_congr_left fun a ha => by
      rw [length_chunks_eq (hr.merged_ne_nil ha)]
  refine hsite.trans (Site.sum_runs hr.aimed fun a ha hrun => ?_).symm
  have hle := (s.node a.handle).length_le
  rw [merged, hrun, List.map_nil, mergeCells_nil_right, nodesFor]
  simp only [Node.capacity] at *
  omega

omit hr in
/-- A level takes no more slots than edits have come to it: a run of `r` edits
adds at most `r` cells to a node. -/
theorem need_le (s : Store) (sites : List Site) :
    need s sites ≤ (Site.edits sites).length := by
  rw [need, Site.edits, List.length_flatMap]
  refine List.sum_le_sum fun a _ => ?_
  by_cases hne : merged s a = []
  · rw [hne, chunks_of_length_le (Nat.zero_le _)]
    exact Nat.zero_le _
  · have hmerge := length_mergeCells_le (s.node a.handle).cells
      (a.run.map Edit.cell)
    have hle := (s.node a.handle).length_le
    rw [List.length_map, ← merged] at hmerge
    rw [length_chunks_eq hne, nodesFor]
    simp only [Node.capacity] at *
    omega

end Need

/-! ## Over the old root

The edits that come out of a root are aimed at no node. The level over it is
laid out from the links to the level below alone, so the number of these is all
that its length, and the number of edits it stages, depend on. -/

/-- An insert batch over a tree that has grown from the level `base` on: each
level from there up has as many nodes as the links to the one below it need, and
an edit has come out for each node of the top level but the first. -/
structure Stacked (base : Nat) (t : Tree) (row : Nat → List Handle)
    (height : Nat) (items : List Pair) (edits : List Edit) : Prop
    extends Rising t row height (height + 1) items edits where
  base_le : base ≤ height
  split : (row height).length = edits.length + 1
  tapers : ∀ k, base ≤ k → k < height →
    (row (k + 1)).length = nodesFor (row k).length

/-- **A level over the root.** Of the edits that come to it a sixteenth is left
over, and it takes a slot for each of these and one for the root. -/
theorem Stacked.pass {base : Nat} {t : Tree} {row : Nat → List Handle}
    {height : Nat} {items : List Pair} {edits : List Edit}
    (r : Stacked base t row height items edits) (hne : edits ≠ []) :
    Yields (Short t.store.capacity
        (t.store.allocated + (edits.length / Node.capacity + 1)))
      (engine.pass (height + 1) t edits) fun step =>
      step.staged.length = edits.length / Node.capacity ∧
      step.state.store.capacity = t.store.capacity ∧
      step.state.store.allocated =
        t.store.allocated + (edits.length / Node.capacity + 1) ∧
      ∃ row', Stacked base step.state row' (height + 1) items step.staged := by
  have hdue : (t.store.due row items (height + 1)).length =
      (row height).length := by simp [Store.due, Store.links]
  have hchunks : (chunks (t.store.due row items (height + 1))).length =
      nodesFor (row height).length := by
    rw [length_chunks_eq, hdue]
    rw [← List.length_pos_iff, hdue, r.split]
    exact Nat.succ_pos _
  have hnodes : nodesFor (row height).length =
      edits.length / Node.capacity + 1 := by
    rw [r.split, nodesFor]
    simp only [Node.capacity]
    omega
  have hpass := r.pass_above (Nat.lt_succ_self height) hne
  rw [hchunks, hnodes] at hpass
  refine hpass.mono ?_
  rintro step ⟨new, -, hr, hext, hlen, hall, hstaged⟩
  refine ⟨by omega, hext.capacity_eq, by rw [hall, hlen], _, hr,
    Nat.le_succ_of_le r.base_le, by rw [Function.update_self, hstaged],
    fun k hk hlt => ?_⟩
  rw [Function.update_of_ne (show k ≠ height + 1 by omega)]
  by_cases htop : k = height
  · rw [htop, Function.update_self, hlen, hnodes]
  · rw [Function.update_of_ne (show k + 1 ≠ height + 1 by omega)]
    exact r.tapers k hk (by omega)

namespace Rising

variable {t : Tree} {row : Nat → List Handle} {height gap : Nat}
  {items : List Pair} {edits : List Edit}

/-- **A level of the tree.** It stages an edit for each slot that it takes,
which are those that its runs need. -/
theorem pass_need (r : Rising t row height gap items edits)
    (hg : gap ≤ height) :
    Yields (Short t.store.capacity (t.store.allocated + edits.length))
      (engine.pass gap t edits) fun step =>
      step.staged.length = ((Edit.runs edits).map fun run =>
        nodesFor (merged t.store (Site.ofRun run)).length - 1).sum ∧
      step.staged.length ≤ edits.length ∧
      step.state.store.capacity = t.store.capacity ∧
      step.state.store.allocated = t.store.allocated + step.staged.length ∧
      ∃ row', Rising step.state row' height (gap + 1) items step.staged ∧
        (gap = height → Stacked height step.state row' height items
          step.staged) := by
  obtain ⟨sites, hsites⟩ := r.exists_sites hg
  have hready := (r.ready hg hsites).2
  have hruns : Edit.runs edits = Site.runs sites := by
    rw [← hsites.edits_eq, Site.runs_edits
      (hsites.row_eq ▸ (r.level gap hg).nodup) hsites.aimed]
  have hle : need t.store sites ≤ edits.length :=
    hsites.edits_eq ▸ need_le t.store sites
  refine ((r.pass_within hg hsites).weaken fun f hf =>
    hf.mono (Nat.add_le_add_left hle _)).mono ?_
  rintro step ⟨new, -, hr, hext, hstaged, hall, hlen⟩
  refine ⟨by rw [hstaged, hruns, need_eq_sum_runs hready],
    hstaged ▸ hle, hext.capacity_eq, hall, _, hr, ?_⟩
  rintro rfl
  refine ⟨hr, Nat.le_refl _, ?_, fun k hk hlt => absurd hlt (by omega)⟩
  rw [Function.update_self, hlen, r.top hg, List.length_singleton,
    Nat.add_comm]

end Rising

/-! ## Whole batches

`Paced` tells how far a batch has come and counts the slots that it may still
take. It has one case for the levels of the tree, passed by `pass_need`, and
one for the levels over the old root, passed by `Stacked.pass`. -/

/-- A batch of `n` edits that has come to the level `gap` of a tree that had the
height `height`, with so many slots in use that it will not need more than
`bound`. -/
structure Paced (capacity bound height n : Nat) (items : List Pair) (gap : Nat)
    (t : Tree) (edits : List Edit) : Prop where
  nonempty : edits ≠ []
  capacity_eq : t.store.capacity = capacity
  level : (gap ≤ height ∧ edits.length ≤ n ∧
      t.store.allocated + (height + 2 - gap) * n ≤ bound ∧
      ∃ row, Rising t row height gap items edits) ∨
    (t.store.allocated + edits.length ≤ bound ∧ ∃ row top, gap = top + 1 ∧
      Stacked height t row top items edits)

namespace Paced

variable {capacity bound height n gap : Nat} {items : List Pair} {t : Tree}
  {edits : List Edit}

theorem exists_rising (p : Paced capacity bound height n items gap t edits) :
    ∃ row height', Rising t row height' gap items edits := by
  obtain ⟨-, -, -, row, r⟩ | ⟨-, row, top, rfl, r⟩ := p.level
  · exact ⟨row, height, r⟩
  · exact ⟨row, top, r.toRising⟩

theorem pass (p : Paced capacity bound height n items gap t edits) :
    Yields (Short capacity bound) (engine.pass gap t edits) fun step =>
      step.staged ≠ [] →
        engine.checkStaged gap step.state step.staged = .ok () ∧
        Paced capacity bound height n items (gap + 1) step.state
          step.staged := by
  obtain rfl := p.capacity_eq
  obtain ⟨hg, hn, hbound, row, r⟩ | ⟨hbound, row, top, rfl, r⟩ := p.level
  · have hshare : (height + 2 - gap) * n = (height + 1 - gap) * n + n := by
      rw [show height + 2 - gap = height + 1 - gap + 1 by omega, Nat.succ_mul]
    refine ((r.pass_need hg).weaken fun f hf => hf.mono (by omega)).mono ?_
    rintro step ⟨-, hle, hcap, hall, row', r', hstacked⟩ hne
    refine ⟨r'.checkStaged_eq_ok, hne, hcap, ?_⟩
    by_cases htop : gap = height
    · refine Or.inr ⟨?_, row', gap, rfl, htop ▸ hstacked htop⟩
      rw [show height + 1 - gap = 1 by omega, Nat.one_mul] at hshare
      omega
    · refine Or.inl ⟨by omega, by omega, ?_, row', r'⟩
      rw [show height + 2 - (gap + 1) = height + 1 - gap by omega]
      omega
  · have hpos := List.length_pos_iff.mpr p.nonempty
    have hhalf : edits.length / Node.capacity + 1 +
        edits.length / Node.capacity ≤ edits.length := by
      simp only [Node.capacity]
      omega
    refine ((r.pass p.nonempty).weaken fun f hf => hf.mono (by omega)).mono ?_
    rintro step ⟨hlen, hcap, hall, row', r'⟩ hne
    exact ⟨r'.checkStaged_eq_ok, hne, hcap,
      Or.inr ⟨by omega, row', top + 1, rfl, r'⟩⟩

end Paced

theorem byRuns : engine.ByRuns rewrite := fun _ _ _ => rfl

namespace Rising

variable {t t' : Tree} {row : Nat → List Handle} {height : Nat}
  {items : List Pair} {edits : List Edit}

/-- **The room that a batch needs.** With a slot for each edit on each level and
over the root, the batch comes to its end. The levels over the root share one
such allowance, as each of them leaves over a sixteenth. -/
theorem run_room (r : Rising t row height 0 items edits) (pool : Pool) :
    Yields (Short t.store.capacity
        (t.store.allocated + (height + 2) * edits.length))
      (engine.run pool t edits).ending (fun _ => True) ∧
    ∀ l ∈ (engine.run pool t edits).levels,
      (l.height ≤ height → ∃ row', Rising l.before row' height l.height items
        l.edits) ∧
      engine.pass l.height l.before l.edits = .ok l.compacted := by
  unfold Engine.run
  by_cases hne : edits = []
  · subst hne
    exact ⟨trivial, fun l hl => nomatch hl⟩
  · rw [if_neg (by simpa using hne)]
    have hall := Engine.climb_yields byRuns.divisible
      (A := Short t.store.capacity
        (t.store.allocated + (height + 2) * edits.length))
      (P := Paced t.store.capacity
        (t.store.allocated + (height + 2) * edits.length) height edits.length
        items) (Q := fun _ => True) ?_ ?_ ?_ pool
      (b := .ofEdits edits pool.workers) (Nat.add_zero _)
      ⟨hne, rfl, Or.inl ⟨Nat.zero_le _, Nat.le_refl _, Nat.le_refl _, row, r⟩⟩
    · refine ⟨hall.1, fun l hl => ?_⟩
      obtain ⟨p, hpass⟩ := hall.2 l hl
      refine ⟨fun hle => ?_, hpass⟩
      obtain ⟨-, -, -, row', r'⟩ | ⟨-, row', top, htop, r'⟩ := p.level
      · exact ⟨row', r'⟩
      · have := r'.base_le
        omega
    · intro gap t' edits p
      obtain ⟨row', height', r'⟩ := p.exists_rising
      exact r'.gap_le_heightLimit
    · intro gap t' edits p
      obtain ⟨row', height', r'⟩ := p.exists_rising
      exact r'.clustered
    · intro gap t' edits p
      refine p.pass.mono fun step h => ?_
      split
      · trivial
      · next hne => exact h hne

end Rising

/-- **The levels over the root.** A digit of the number of edits goes with each
level, and when none is left the tree is mended. -/
theorem Stacked.climb {base : Nat} {t t' : Tree} {row : Nat → List Handle}
    {height count : Nat} {items : List Pair} {pool : Pool} {b : Buffers}
    (r : Stacked base t row height items b.current) (hne : b.current ≠ [])
    (hcount : count + (height + 1) = heightLimit + 1)
    (hend : (engine.climb pool count (height + 1) t b).ending = .ok t') :
    ∃ row' grown, t'.Intact row' grown items ∧
      grown = height + (Nat.digits Node.capacity b.current.length).length ∧
      ∀ k, base ≤ k → k < grown →
        (row' (k + 1)).length = nodesFor (row' k).length := by
  have hall := Engine.climb_yields byRuns.divisible (A := fun _ => True)
    (P := fun gap t edits => edits ≠ [] ∧ ∃ row top, gap = top + 1 ∧
      Stacked base t row top items edits ∧
      top + (Nat.digits Node.capacity edits.length).length =
        height + (Nat.digits Node.capacity b.current.length).length)
    (Q := fun t' => ∃ row' grown, t'.Intact row' grown items ∧
      grown = height + (Nat.digits Node.capacity b.current.length).length ∧
      ∀ k, base ≤ k → k < grown →
        (row' (k + 1)).length = nodesFor (row' k).length) ?_ ?_ ?_ pool hcount
    ⟨hne, row, height, rfl, r, rfl⟩
  · exact hall.1.of_ok hend
  · rintro gap t edits ⟨-, row, top, rfl, r, -⟩
    exact r.gap_le_heightLimit
  · rintro gap t edits ⟨-, row, top, rfl, r, -⟩
    exact r.clustered
  · rintro gap t edits ⟨hne, row, top, rfl, r, hdigits⟩
    rw [Nat.digits_def' (by decide) (List.length_pos_iff.mpr hne),
      List.length_cons] at hdigits
    refine ((r.pass hne).weaken fun _ _ => trivial).mono ?_
    rintro step ⟨hlen, -, -, row', r'⟩
    rw [← hlen] at hdigits
    split
    · next hnil =>
        rw [hnil] at r' hdigits
        exact ⟨row', top + 1, r'.intact, hdigits, r'.tapers⟩
    · next hcons =>
        exact ⟨r'.checkStaged_eq_ok, hcons, row', top + 1, rfl, r', by omega⟩

/-- **Growth.** The tree grows by as many levels as the number of edits that
come out of the old root has digits, and each of them has as many nodes as the
one below it needs. -/
theorem Rising.run_grows {t t' : Tree} {row : Nat → List Handle} {height : Nat}
    {items : List Pair} {edits : List Edit}
    (r : Rising t row height 0 items edits) (pool : Pool)
    (hend : (engine.run pool t edits).ending = .ok t') :
    ∃ row' grown, t'.Intact row' grown items ∧
      grown = height + (Nat.digits Node.capacity
        ((engine.run pool t edits).stagedAt height).length).length ∧
      ∀ k, height ≤ k → k < grown →
        (row' (k + 1)).length = nodesFor (row' k).length := by
  have hlevels := (r.run_room pool).2
  unfold Engine.run at hend hlevels ⊢
  by_cases hne : edits = []
  · subst hne
    obtain rfl : t = t' := Except.ok.inj hend
    exact ⟨row, height, r.intact, rfl, fun k hk hlt => absurd hlt (by omega)⟩
  · rw [if_neg (by simpa using hne)] at hend hlevels ⊢
    obtain ⟨hnone, l, hl, hle, hnil, rfl⟩ |
      ⟨l, hl, rfl, hne', hat, rest, b, hrest, hcur, hend'⟩ :=
      Engine.climb_over (Nat.zero_le height) hend
    · obtain ⟨hrising, hpass⟩ := hlevels l hl
      obtain ⟨row', r'⟩ := hrising hle
      obtain ⟨-, -, -, -, row'', r'', -⟩ := (r'.pass_need hle).of_ok hpass
      rw [hnil] at r''
      rw [hnone]
      exact ⟨row'', height, r''.intact, rfl,
        fun k hk hlt => absurd hlt (by omega)⟩
    · obtain ⟨hrising, hpass⟩ := hlevels l hl
      obtain ⟨row', r'⟩ := hrising (Nat.le_refl _)
      obtain ⟨-, -, -, -, row'', -, hstacked⟩ :=
        (r'.pass_need (Nat.le_refl _)).of_ok hpass
      rw [hat, ← hcur]
      exact Stacked.climb (hcur ▸ hstacked rfl) (hcur ▸ hne') (by omega) hend'

end Insert

end LevelIndex
