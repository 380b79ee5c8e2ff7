import LevelIndex.Proofs.Remove.Climb

/-!
# What a removal hands from level to level

While a removal climbs, the tree does not fit together: a level has been
rewritten and compacted, and the separators above it still name the nodes that
were there. What was staged is all that is known of the difference. A `Handover`
says what has to be true at that moment for the tree to mend, in terms of walks
along the level and the one above: no cell of the level was lost but by an edit,
and the separators, once they are amended by what was staged for their own
nodes, are the links of the level.

It is read off the invariant of the batch at the next level (`Falling`), which
says the same of the level as a whole. That each edit finds its key in the very
node it is aimed at, and that no other node holds the key, is `Falling.met` and
`Falling.amend_filter`. So what the level has to store can be had node by node
(`Falling.flatMap_amend_filter`).
-/

namespace LevelIndex

namespace Remove

/-- A level below the root, passed by a removal: its nodes before and after, and
the nodes of the level above. -/
structure Handover (r : LevelRecord Tree)
    (old new upper : List (Handle × Node)) : Prop where
  before : r.before.levelNodes r.height = .ok old
  after : r.compacted.state.levelNodes r.height = .ok new
  above : r.compacted.state.levelNodes (r.height + 1) = .ok upper
  ends : new.getLast?.map (·.2.right) = some .null
  nonempty : ∀ q ∈ new, q.2.cells ≠ []
  /-- The edits of the level drop or rename keys, each of them another, and
  nothing else happens to its cells. -/
  ascending : Ascending (Edit.keys r.edits)
  alters : ∀ e ∈ r.edits, e.Alters
  cells_eq : (new.flatMap fun q => q.2.cells) =
    amend r.edits (old.flatMap fun q => q.2.cells)
  /-- So do those that were staged, each to a key of the node it is aimed at. -/
  staged_ascending : Ascending (Edit.keys r.compacted.staged)
  staged_alters : ∀ e ∈ r.compacted.staged, e.Alters
  staged_met : ∀ e ∈ r.compacted.staged, ∃ q ∈ upper, q.1 = e.target ∧
    e.key ∈ q.2.keys
  /-- Each node above, once it does as it is told, holds links of the level, and
  all of them together hold all links in order. -/
  links_eq : (upper.flatMap fun q =>
      amend (r.compacted.staged.filter (·.target = q.1)) q.2.cells) =
    new.map fun q => ⟨q.2.firstKey, .child q.1⟩
  /-- It is the parent of the nodes that it then links to. -/
  owns : ∀ q ∈ upper,
    ∀ c ∈ amend (r.compacted.staged.filter (·.target = q.1)) q.2.cells,
      ∃ p ∈ new, c = ⟨p.2.firstKey, .child p.1⟩ ∧ p.2.parent = q.1

namespace Falling

variable {t : Tree} {row : Nat → List Handle} {height gap : Nat}
  {items : List Pair} {edits : List Edit}

theorem target_eq (r : Falling t row height gap items edits) {p : Handle}
    (hp : p ∈ row gap) {c : Cell} (hc : c ∈ (t.store.node p).cells) {e : Edit}
    (he : e ∈ edits) (hk : e.key = c.key) : e.target = p := by
  have hl := r.level gap r.within
  have hrange := Store.floor_links_of_mem hl.increasing hl.nonempty hp hc
  obtain ⟨first, hfloor⟩ := r.routed e he
  rw [hk, hrange] at hfloor
  simp only [Option.some.injEq, Cell.mk.injEq, Entry.child.injEq] at hfloor
  exact hfloor.2.symm

theorem met (r : Falling t row height gap items edits) (hg : gap ≠ 0) {e : Edit}
    (he : e ∈ edits) :
    e.target ∈ row gap ∧ e.key ∈ (t.store.node e.target).keys := by
  obtain ⟨c, hc, hk⟩ := r.present hg e he
  obtain ⟨p, hp, hc⟩ := Store.mem_contents.mp hc
  rw [r.target_eq hp hc he hk.symm, ← hk]
  exact ⟨hp, List.mem_map_of_mem hc⟩

theorem amend_filter (r : Falling t row height gap items edits) {p : Handle}
    (hp : p ∈ row gap) :
    amend (edits.filter (·.target = p)) (t.store.node p).cells =
      amend edits (t.store.node p).cells :=
  amend_congr fun _ hc => amended_filter fun _ he hk =>
    decide_eq_true (r.target_eq hp hc he hk)

/-- All nodes of a level, amended by the edits that are aimed at them, hold what
is due. The others have no key of theirs, so they might as well be left out. -/
theorem flatMap_amend_filter (r : Falling t row height gap items edits) :
    ((row gap).flatMap fun p =>
      amend (edits.filter (·.target = p)) (t.store.node p).cells) =
      t.store.due row items gap := by
  rw [← r.amend_eq, List.flatMap_congr fun p hp => r.amend_filter hp, amend,
    Store.contents, List.filterMap_flatMap]
  rfl

/-- **One level of a removal.** What is passed below the root is handed over. -/
theorem handover {l : LevelRecord Tree}
    (r : Falling l.before row height l.height items l.edits)
    (hg : l.height < height)
    (hpass : engine.pass l.height l.before l.edits = .ok l.compacted) :
    ∃ old new upper, Handover l old new upper := by
  obtain ⟨step, new, hstep, -, hcont, hnext, -⟩ := r.pass_spec
  obtain rfl : step = l.compacted := Except.ok.inj (hstep.symm.trans hpass)
  have r' := hnext hg
  have hnew := r'.isRow (Nat.le_of_lt hg)
  have hup := r'.isRow hg
  have hlinks := r'.flatMap_amend_filter
  rw [Store.due] at hlinks
  rw [Function.update_self] at hnew hlinks
  let s := l.compacted.state.store
  refine ⟨(row l.height).map fun h => (h, l.before.store.node h),
    new.map fun h => (h, s.node h),
    (Function.update row l.height new (l.height + 1)).map fun h =>
      (h, s.node h), ?_⟩
  exact
    { before := r.walkable.levelNodes_eq r.within
      after := by
        rw [r'.walkable.levelNodes_eq (Nat.le_of_lt hg), Function.update_self]
      above := r'.walkable.levelNodes_eq hg
      ends := by
        rw [List.getLast?_map, Option.map_map]
        exact hnew.linked.last_right hnew.occupied
      nonempty := fun q hq => by
        obtain ⟨h, hh, rfl⟩ := List.mem_map.mp hq
        exact hnew.nonempty h hh
      ascending := r.ascending
      alters := r.alters
      cells_eq := by
        rw [Store.flatMap_cells, Store.flatMap_cells, hcont, r.amend_eq]
      staged_ascending := r'.ascending
      staged_alters := r'.alters
      staged_met := fun e he => by
        obtain ⟨hmem, hkey⟩ := r'.met (Nat.succ_ne_zero _) he
        exact ⟨_, List.mem_map_of_mem hmem, rfl, hkey⟩
      links_eq := by
        rw [List.flatMap_map, List.map_map]
        exact hlinks
      owns := fun q hq c hc => by
        obtain ⟨p, hp, rfl⟩ := List.mem_map.mp hq
        have hmem : c ∈ s.links new := hlinks ▸ List.mem_flatMap.mpr ⟨p, hp, hc⟩
        obtain ⟨k, hk, rfl⟩ := Store.mem_links.mp hmem
        obtain ⟨d, hd, -, hentry⟩ := exists_of_mem_amend
          (fun e he => r'.alters e (List.mem_filter.mp he).1) hc
        have hchild : k ∈ (s.node p).children :=
          List.mem_filterMap.mpr ⟨d, hd, by rw [hentry]; rfl⟩
        exact ⟨_, List.mem_map_of_mem hk, rfl, r'.owns hg p hp k hchild⟩ }

end Falling

end Remove

end LevelIndex
